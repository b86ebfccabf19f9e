import Aegis.Ingress.Dedup

/-!
# One initiate request

What `handleInitiate` does in an environment that answers its calls one after the other. The
registry is asked by hash and answers by text, in lower case, so a block that is there is missed if
the request spells its hash with capitals (`uploadUrls_eq_iff`).
-/

namespace Aegis.Ingress.Handlers

open Db

/-! ## Missing blocks -/

/-- The hash that the text spells has a row in the registry. -/
def registered (d : Db) (t : List Char) : Bool := (decodeHash t).any (hasBlock · d)

/-- Of the spellings of a hash, the lower-case one is the text that the registry answers. -/
theorem isLower_iff_eq_hexText (hlen : byteLen t = 64) (hdec : decodeHash t = some h) :
    (∀ c ∈ t, isLowerHexDigit c = true) ↔ t = hexText 64 h.toNat := by
  constructor
  · intro hlower
    obtain ⟨digits, hdigits, rfl⟩ := Option.map_eq_some_iff.1 hdec
    rw [byteLen, sum_utf8Size_of_isLowerHexDigit hlower] at hlen
    obtain ⟨htext, hlt⟩ := eq_hexText hlower hdigits
    rw [hlen] at htext hlt
    rwa [BitVec.toNat_ofNat, Nat.mod_eq_of_lt (hlt.trans_eq (by norm_num))]
  · intro htext c hc
    rw [htext] at hc
    exact isLowerHexDigit_of_mem_hexText hc

theorem mem_existingCas_iff (hlen : byteLen t = 64) (hdec : decodeHash t = some h)
    (hmem : h ∈ hashes) :
    t ∈ d.existingCas hashes ↔ registered d t = true ∧ ∀ c ∈ t, isLowerHexDigit c = true := by
  rw [isLower_iff_eq_hexText hlen hdec, registered, hdec, Option.any_some, existingCas,
    List.mem_map]
  constructor
  · rintro ⟨h', hh', htext⟩
    have hlower := (isLower_iff_eq_hexText hlen hdec).1 fun c hc =>
      isLowerHexDigit_of_mem_hexText (htext ▸ hc)
    have hbound : ∀ k : Hash, k.toNat < 16 ^ 64 := fun k => k.isLt.trans_eq (by norm_num)
    have heq := hexText_inj (hbound h') (hbound h) (htext.trans hlower)
    obtain rfl := BitVec.eq_of_toNat_eq heq
    obtain ⟨r, hr, -⟩ := Table.mem_keysWhere.1 hh'
    exact ⟨by rw [hasBlock, hr, Option.isSome_some], hlower⟩
  · rintro ⟨hrow, htext⟩
    obtain ⟨r, hr⟩ := Option.isSome_iff_exists.1 hrow
    exact ⟨h, Table.mem_keysWhere.2 ⟨r, hr, by simpa using hmem⟩, htext.symm⟩

/-- The registry answers its query from the rows of `d`. -/
def registry (d : Db) : Contract Cmd Answer Unit where
  grows _ _ := True
  may _ _ := True
  told _ c a :=
    match c, a with
    | .batchQueryExistingCas hashes, .ok existing =>
      (show List (List Char) from existing) = d.existingCas hashes
    | _, _ => True
  refl _ := trivial
  trans _ _ := trivial

section
variable {σ : Type} (answer : (c : Cmd) → σ → Answer c × σ)

/-- **Which blocks are given URLs.** For every request, every registry and whatever the other calls
answer: if `handleInitiate` succeeds, it gives URLs for exactly the requested blocks that are not in
the registry, in their order, if and only if the request spells the hashes of all blocks that are
there in lower case. -/
theorem uploadUrls_eq_iff (srv : Server) (req : InitiateRequest) (d : Db) (s s' : σ)
    (resp : InitiateResponse) (hquery : ∀ c s, (registry d).told () c (answer c s).1)
    (h : Proc.eval answer (handleInitiate srv req) s = (.ok resp, s')) :
    resp.uploadUrls.map UploadUrl.chunk =
        req.chunks.filter (fun c => !registered d c.blockHash) ↔
      ∀ c ∈ req.chunks, registered d c.blockHash = true →
        ∀ x ∈ c.blockHash, isLowerHexDigit x = true := by
  have hserves : Serves (registry d) _ (handleInitiate srv req) () :=
    handleInitiate_serves (fun _ _ _ => trivial) fun _ _ _ _ => trivial
  obtain ⟨hashes, existing, hvalid, hdecoded, ⟨_, -, htold⟩, hurls⟩ :=
    hserves.eval hquery s resp (congrArg Prod.fst h)
  obtain rfl : existing = d.existingCas hashes := htold
  have hlisted := ((InitiateRequest.validate_eq_ok_iff req).1 hvalid).2.2.2.2
  have hmem : ∀ c ∈ req.chunks, c.blockHash ∈ d.existingCas hashes ↔
      registered d c.blockHash = true ∧ ∀ x ∈ c.blockHash, isLowerHexDigit x = true := by
    intro c hc
    have hdec := List.mem_map_of_mem (f := decodeHash)
      (List.mem_map_of_mem (f := ChunkInfo.blockHash) hc)
    rw [hdecoded] at hdec
    obtain ⟨hash, hhash, hdec⟩ := List.mem_map.1 hdec
    exact mem_existingCas_iff (hlisted c hc).length hdec.symm hhash
  rw [hurls]
  constructor
  · intro heq c hc hreg
    by_contra hlower
    have hasked : c ∈ req.chunks.filter fun c => c.blockHash ∉ d.existingCas hashes := by
      refine List.mem_filter.2 ⟨hc, decide_eq_true fun hex => ?_⟩
      exact hlower ((hmem c hc).1 hex).2
    rw [heq, List.mem_filter, hreg] at hasked
    cases hasked.2
  · intro hlower
    refine List.filter_congr fun c hc => ?_
    cases hreg : registered d c.blockHash with
    | true => simp [(hmem c hc).2 ⟨hreg, hlower c hc hreg⟩]
    | false => simp [mt (hmem c hc).1, hreg]

end

/-- Block 10 is in the registry. -/
def blockTen : Db :=
  { Db.seed tenantOne fileTwo ∅ with blocks := AList.singleton 10 ⟨1, 4, .hot, 1, true, 0⟩ }

/-- All calls of a request go through. -/
def answerTen : (c : Cmd) → Unit → Answer c × Unit
  | .createUploadSession _ _ _ _, s => (.ok ((3, 50) : Uuid × Time), s)
  | c, s => ((State.init blockTen).reply oneTenant ⟨3, 0, 0, 50, ['u']⟩ c, s)

theorem told_answerTen (c : Cmd) (s : Unit) : (registry blockTen).told () c (answerTen c s).1 := by
  cases c with
  | batchQueryExistingCas hashes => rfl
  | _ => trivial

def initiateHash (hash : List Char) : InitiateRequest :=
  { initiateSeven with chunks := [⟨hash, 4⟩] }

/-- The block is found if the request spells its hash in lower case. -/
theorem uploadUrls_eq_lower : ∃ resp,
    Proc.eval answerTen (handleInitiate oneTenant (initiateHash (hexText 64 10))) () =
        (.ok resp, ()) ∧
      resp.uploadUrls.map UploadUrl.chunk = (initiateHash (hexText 64 10)).chunks.filter
        fun c => !registered blockTen c.blockHash := by
  have heval : Proc.eval answerTen (handleInitiate oneTenant (initiateHash (hexText 64 10))) () =
      (.ok ⟨3, 2, 50, []⟩, ()) := Prod.ext (by decide +kernel) (Subsingleton.elim ..)
  refine ⟨_, heval,
    (uploadUrls_eq_iff answerTen oneTenant _ blockTen () () _ told_answerTen heval).2 ?_⟩
  intro c hc _ x hx
  cases List.mem_singleton.1 hc
  exact isLowerHexDigit_of_mem_hexText hx

def capitalTen : List Char := .replicate 63 '0' ++ ['A']

/-- With a capital it is not, and is given a URL. -/
theorem uploadUrls_of_capital : ∃ resp,
    Proc.eval answerTen (handleInitiate oneTenant (initiateHash capitalTen)) () =
        (.ok resp, ()) ∧
      resp.uploadUrls.map UploadUrl.chunk ≠ (initiateHash capitalTen).chunks.filter
        fun c => !registered blockTen c.blockHash :=
  ⟨⟨3, 2, 50, [⟨capitalTen, ['u'], 4⟩]⟩, Prod.ext (by decide +kernel) (Subsingleton.elim ..),
    by decide +kernel⟩

end Aegis.Ingress.Handlers
