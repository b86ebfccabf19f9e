import Aegis.Ingress.Dedup

/-!
# Verified blocks

After a commit `handleCommit` marks each block as verified for which `VerifyBlock` finds an object
with the ETag that the client has sent. The ETag says that the blob store has what the client put
there; nothing compares it, or the object, with the hash that the block goes by. So a client that
puts other bytes and sends their ETag has them marked. Where every client puts the bytes that the
block is named for, a block that was marked is in the blob store, bit for bit.
-/

namespace Aegis.Ingress.Handlers

open Db Stmt Txn Txn.Prog

/-! ## Objects and marks -/

/-- There is an object for the hash, and every object for it has that hash. -/
structure BitPerfect (sha256 : List UInt8 → Hash) (objects : Table (List Char) (List UInt8))
    (h : Hash) : Prop where
  present : ∃ t, decodeHash t = some h ∧ stored objects t = true
  digest : ∀ t bytes, decodeHash t = some h → objects.lookup t = some bytes → sha256 bytes = h

/-- A block is put with the bytes that it is named for. -/
def putsNamed (sha256 : List UInt8 → Hash) (_ : State) : Act → Bool
  | .upload blockHash bytes => decodeHash blockHash = some (sha256 bytes)
  | _ => true

/-- What an answer tells of the blob store: a block that verifies is there. Only such a block may be
marked. -/
def verifies : Contract Cmd Answer (Table (List Char) (List UInt8)) where
  grows o o' := ∀ t, stored o t = true → stored o' t = true
  may o c :=
    match c with
    | .markBlockVerified h => ∃ t, decodeHash t = some h ∧ stored o t = true
    | _ => True
  told o c a :=
    match c, a with
    | .verifyBlock blockHash _, .ok _ => stored o blockHash = true
    | _, _ => True
  refl := stored_refl
  trans := @stored_trans

variable {sha256 : List UInt8 → Hash} {srv : Server} {s s' : State}

theorem handle_verifies (o : Table (List Char) (List UInt8)) (r : Request) :
    Serves verifies (fun w resp => r.Met verifies w resp) (handle srv r) o := by
  refine handle_serves (fun o c hc => ?_) (fun _ _ _ _ _ => trivial) ?_
    (fun _ _ _ _ _ _ => trivial) r
  · cases c with
    | markBlockVerified h => cases hc
    | _ => trivial
  · rintro o t etag h ⟨o₀, hgrow, htold⟩ hdecode
    exact ⟨t, hdecode, hgrow t htold⟩

/-- `VerifyBlock` succeeds only on an object. -/
theorem verifies_told (hx : Answers srv s q c x) : verifies.told s.objects c x := by
  cases hx with
  | refused e => cases c <;> trivial
  | replied x hcall =>
    cases c with
    | verifyBlock blockHash etag =>
      dsimp only [State.reply, State.verify]
      split
      · trivial
      · next bytes hbytes =>
        have hstored : stored s.objects blockHash = true := by
          rw [stored, hbytes, Option.isSome_some]
        split
        · exact hstored
        · trivial
    | _ => trivial
  | served ht hphase =>
    cases c with
    | verifyBlock blockHash etag => trivial
    | _ => trivial

/-! ## Runs -/

/-- **The invariant**: objects are what they are named for, and the blocks that transactions mark
have objects. -/
structure Vetted (sha256 : List UInt8 → Hash) (s : State) : Prop where
  named : ∀ t bytes, s.objects.lookup t = some bytes → decodeHash t = some (sha256 bytes)
  marked : ∀ (i : Nat) (tx : Tx Db DbLock Err Call Res) (h : Hash), s.pool.txns[i]? = some tx →
    tx.call = .markBlockVerified h → ∃ t, decodeHash t = some h ∧ stored s.objects t = true
  obeys : Obeys verifies s.objects s

theorem vetted_init (d : Db) : Vetted sha256 (.init d) where
  named := nofun
  marked i tx h hi := by
    simp [State.init, Sys.init] at hi
  obeys := obeys_init _

theorem Vetted.bitPerfect (hs : Vetted sha256 s) (htx : tx ∈ s.pool.txns)
    (hcall : tx.call = .markBlockVerified h) : BitPerfect sha256 s.objects h := by
  obtain ⟨i, hi⟩ := List.mem_iff_getElem?.1 htx
  refine ⟨hs.marked i tx h hi hcall, fun t bytes hdecode hbytes => ?_⟩
  exact Option.some.inj ((hs.named t bytes hbytes).symm.trans hdecode)

/-- A step of the pool: what it starts may be marked. -/
theorem Vetted.marked_step (hs : Vetted sha256 s) (hp : s.pool.step Call.body a = some pool)
    (hnew : ∀ h, a = .start (.markBlockVerified h) →
      ∃ t, decodeHash t = some h ∧ stored s.objects t = true) (i : Nat)
    (tx : Tx Db DbLock Err Call Res) (h : Hash) (hi : pool.txns[i]? = some tx)
    (hcall : tx.call = .markBlockVerified h) :
    ∃ t, decodeHash t = some h ∧ stored s.objects t = true := by
  rcases (Sys.does_of_step hp).call_of hi with ⟨tx₀, hi₀, hsame, -⟩ | hstart
  · exact hs.marked i tx₀ h hi₀ (hsame.trans hcall)
  · exact hnew h (hstart.trans (congrArg Action.start hcall))

/-- **One action** keeps the invariant, if it puts no other bytes. -/
theorem Vetted.step (hs : Vetted sha256 s) (hput : putsNamed sha256 s a = true)
    (hstep : s.step srv a = some s') : Vetted sha256 s' := by
  have hd := does_of_step hstep
  have hobeys : (∀ t, stored s.objects t = true → stored s'.objects t = true) →
      Obeys verifies s'.objects s' := fun hgrow =>
    hs.obeys.does hd hgrow (handle_verifies _) fun _ hx => verifies_told hx
  cases hd with
  | receive r => exact ⟨hs.named, hs.marked, hobeys fun _ h => h⟩
  | @start i x req c next call pool hi hcall hp =>
    refine ⟨hs.named, hs.marked_step hp ?_, hobeys fun _ h => h⟩
    rintro h ⟨⟩
    have hkeeps := hs.obeys _ (List.mem_of_getElem? hi)
    have hmay := (hkeeps s.objects (verifies.refl _)).1
    cases c with
    | markBlockVerified h' =>
      cases hcall
      exact hmay
    | _ => cases hcall
  | answer hi hprog hx => exact ⟨hs.named, hs.marked, hobeys fun _ h => h⟩
  | @txn _ pa pool hact hp =>
    refine ⟨hs.named, hs.marked_step hp ?_, hobeys fun _ h => h⟩
    rintro h rfl
    cases a <;> cases hact
  | @upload blockHash bytes =>
    have hgrow := stored_insert s.objects blockHash bytes
    refine ⟨fun t bytes' ht => ?_, fun i tx h hi hcall => ?_, hobeys hgrow⟩
    · rw [Table.lookup_insert_eq] at ht
      split at ht
      · next heq =>
        cases ht
        rw [heq]
        exact of_decide_eq_true hput
      · exact hs.named t bytes' ht
    · obtain ⟨t, hdecode, ht⟩ := hs.marked i tx h hi hcall
      exact ⟨t, hdecode, hgrow t ht⟩

/-- **A block that was marked as verified is bit-perfect**, in every run in which each block is put
with the bytes that it is named for. -/
theorem marked_bitPerfect {d : Db} {acts : List Act}
    (hput : Run.throughout (State.step srv) (putsNamed sha256) (.init d) acts = true)
    (hrun : (State.init d).run srv acts = some s) {tx : Tx Db DbLock Err Call Res} {h : Hash}
    (htx : tx ∈ s.pool.txns) (hcall : tx.call = .markBlockVerified h) :
    BitPerfect sha256 s.objects h := by
  have hs : Vetted sha256 s := Run.run_induction (I := Vetted sha256)
    (fun hs hok h => hs.step hok h) (vetted_init d) hput hrun
  exact hs.bitPerfect htx hcall

/-! ## An upload of one block -/

/-- A server with a blob store whose ETags are the bytes in hexadecimal. -/
def etagServer : Server where
  blob := true
  events := false
  endpointId := []
  parseUuid t := [1, 2, 3].find? fun u : Uuid => u.text == t
  etagOf := encodeToString

def initiateBlock (h : Nat) : InitiateRequest where
  tenantId := Uuid.text 1
  fileName := ['f']
  parentId := none
  nodeId := some (Uuid.text 2)
  totalSize := 1
  chunks := [⟨hexText 64 h, 1⟩]

/-- The commit of the block, with the ETag of the bytes that were put. -/
def commitBlock (h : Nat) (bytes : List UInt8) : CommitRequest where
  sessionId := Uuid.text 3
  contentSha256 := hexText 64 9
  mimeType := []
  blocks := [⟨hexText 64 h, 0, 0, 1, encodeToString bytes⟩]

/-- The block is initiated, put and committed, and then marked by the third transaction. -/
def uploadBlock (h : Nat) (bytes : List UInt8) : List Act :=
  .receive (.initiate (initiateBlock h)) :: List.replicate 5 (call 0 3) ++
    [.exec 0, .exec 0, .exec 0, .commit 0, call 0 3, .upload (hexText 64 h) bytes,
      .receive (.commit 0 (commitBlock h bytes))] ++ List.replicate 2 (call 1 5) ++
    List.replicate 15 (.exec 1) ++ .commit 1 :: List.replicate 4 (call 1 5) ++
    [.exec 2, .exec 2, .commit 2]

/-- The third transaction marks the block, and the object under its text has the bytes. -/
def marksBytes (h : Nat) (bytes : List UInt8) (s : State) : Bool :=
  s.objects.lookup (hexText 64 h) == some bytes &&
    (s.pool.txns[2]?).any fun tx =>
      match tx.call with
      | .markBlockVerified h' => h' == BitVec.ofNat 256 h
      | _ => false

theorem of_marksBytes (hs : marksBytes h bytes s = true) :
    s.objects.lookup (hexText 64 h) = some bytes ∧
      ∃ tx ∈ s.pool.txns, tx.call = .markBlockVerified (BitVec.ofNat 256 h) := by
  obtain ⟨hbytes, htx⟩ := Bool.and_eq_true_iff.1 hs
  refine ⟨beq_iff_eq.1 hbytes, ?_⟩
  cases hi : s.pool.txns[2]? with
  | none =>
    rw [hi] at htx
    cases htx
  | some tx =>
    rw [hi, Option.any_some] at htx
    refine ⟨tx, List.mem_of_getElem? hi, ?_⟩
    split at htx
    · next h' hcall => rw [hcall, beq_iff_eq.1 htx]
    · cases htx

/-- A digest for short inputs: the bytes as a number. -/
def bytesNumber (bytes : List UInt8) : Hash :=
  BitVec.ofNat 256 (bytes.foldl (fun n b => 256 * n + b.toNat) 0)

theorem marked_bitPerfect_named :
    ∃ s tx, (State.init (Db.seed tenantOne fileTwo ∅)).run etagServer (uploadBlock 7 [7]) = some s ∧
      tx ∈ s.pool.txns ∧ tx.call = .markBlockVerified 7 ∧
      BitPerfect bytesNumber s.objects 7 := by
  have hrun : ((State.init (Db.seed tenantOne fileTwo ∅)).run etagServer (uploadBlock 7 [7])).map
      (marksBytes 7 [7]) = some true := by
    decide +kernel
  have hput : Run.throughout (State.step etagServer) (putsNamed bytesNumber)
      (.init (Db.seed tenantOne fileTwo ∅)) (uploadBlock 7 [7]) = true := by
    decide +kernel
  obtain ⟨s, hs, hmarks⟩ := Option.map_eq_some_iff.1 hrun
  obtain ⟨-, tx, htx, hcall⟩ := of_marksBytes hmarks
  exact ⟨s, tx, hs, htx, hcall, marked_bitPerfect hput hs htx hcall⟩

/-- **Other bytes are marked as verified**: whatever the hash function, there is a block that a
client has marked after it put a byte of another hash. -/
theorem exists_forged (sha256 : List UInt8 → Hash) :
    ∃ (h : Nat) (s : State), (State.init (Db.seed tenantOne fileTwo ∅)).run etagServer
        (uploadBlock h [0]) = some s ∧
      (∃ tx ∈ s.pool.txns, tx.call = .markBlockVerified (BitVec.ofNat 256 h)) ∧
      ¬ BitPerfect sha256 s.objects (BitVec.ofNat 256 h) := by
  have hrun : ∀ h ∈ [7, 8], ((State.init (Db.seed tenantOne fileTwo ∅)).run etagServer
      (uploadBlock h [0])).map (marksBytes h [0]) = some true := by
    decide +kernel
  have hdecode : ∀ h ∈ [7, 8], decodeHash (hexText 64 h) = some (BitVec.ofNat 256 h) := by
    decide +kernel
  -- a byte cannot have both hashes
  obtain ⟨h, hh, hne⟩ : ∃ h ∈ [7, 8], sha256 [0] ≠ BitVec.ofNat 256 h := by
    by_cases h7 : sha256 [0] = BitVec.ofNat 256 7
    · exact ⟨8, by decide, by rw [h7]; decide⟩
    · exact ⟨7, by decide, h7⟩
  obtain ⟨s, hs, hmarks⟩ := Option.map_eq_some_iff.1 (hrun h hh)
  obtain ⟨hbytes, htx⟩ := of_marksBytes hmarks
  exact ⟨h, s, hs, htx, fun hperfect => hne (hperfect.digest _ _ (hdecode h hh) hbytes)⟩

/-- The same with a hash function that is given. -/
theorem forged_block_marked :
    ∃ (h : Nat) (s : State), (State.init (Db.seed tenantOne fileTwo ∅)).run etagServer
        (uploadBlock h [0]) = some s ∧
      (∃ tx ∈ s.pool.txns, tx.call = .markBlockVerified (BitVec.ofNat 256 h)) ∧
      ¬ BitPerfect (fun _ => 0) s.objects (BitVec.ofNat 256 h) :=
  exists_forged fun _ => 0

end Aegis.Ingress.Handlers
