import Aegis.FastCdc.Scan
import Aegis.Lib.Hex
import Aegis.Lib.Tile
import Aegis.Lib.View

/-!
# The chunker of the web client (`web/lib/fastcdc/fastcdc.ts`)

`chunkBufferFastCDC` cuts a `Uint8Array`, which is a view on an `ArrayBuffer`, into parts of it. A
cut comes after at least `MIN_CHUNK_SIZE` bytes, before the first byte from there on at which the
Gear fingerprint hits the mask, and after `MAX_CHUNK_SIZE` bytes at the latest. The parts tile the
view (`chunkBufferFastCDC_tiles`).

`computeSHA256` digests the `ArrayBuffer` that a part is a view on, and not the part. So the hash of
a chunk is that of its own bytes only if the chunk shows all of the `ArrayBuffer`
(`hash_eq_iff`).

The digest is the caller's, and the callback is taken to return.
-/

namespace Aegis.Web.FastCdc

open Aegis.FastCdc (GearTable gearStep gearFold Hits)

/-- A `Uint8Array`: a view on an `ArrayBuffer`. -/
abbrev Uint8Array : Type := View UInt8

/-- `ChunkResult`. -/
structure ChunkResult where
  hash : List Char
  offset : Nat
  size : Nat
  data : Uint8Array

def minChunkSize : Nat := 2 * 1024 * 1024

def maxChunkSize : Nat := 8 * 1024 * 1024

/-- The mask of the boundary scan. -/
def mask : UInt32 := 0x000fffff

/-- `GEAR_TABLE`. The first product is exact, and every operator after it takes its operands modulo
`2 ^ 32`. -/
def gearTable : GearTable := fun i =>
  let h := UInt32.ofNat (i.toNat * 2654435761)
  let h := (h ^^^ (h >>> 16)) * 2246822507
  let h := (h ^^^ (h >>> 13)) * 3266489917
  h ^^^ (h >>> 16)

/-- The scan for a boundary at `chunkSize`, with `n` more rounds to go. Beyond the end of the buffer
the byte is `undefined`, and then so is its table entry, which makes the fingerprint `0`. -/
def scan (buffer : Uint8Array) (offset : Nat) : Nat → Nat → UInt32 → Nat
  | 0, chunkSize, _ => chunkSize
  | n + 1, chunkSize, fingerprint =>
    let byte := buffer.get? (offset + chunkSize)
    let fingerprint := byte.elim 0 (gearStep gearTable fingerprint)
    if fingerprint &&& mask = 0 then chunkSize
    else scan buffer offset n (chunkSize + 1) fingerprint

section
variable (digest : List UInt8 → List UInt8)

/-- `computeSHA256`: the digest of `buffer.buffer`, in hexadecimal. -/
def computeSHA256 (buffer : Uint8Array) : List Char := encodeToString (digest buffer.buffer)

/-- The loop of `chunkBufferFastCDC`; nothing if the fuel is used up. -/
def chunkLoop (buffer : Uint8Array) : Nat → Nat → List ChunkResult → Option (List ChunkResult)
  | 0, _, _ => none
  | fuel + 1, offset, chunks =>
    if offset < buffer.length then
      let remaining := buffer.length - offset
      if remaining ≤ minChunkSize then
        let slice := buffer.subarray offset buffer.length
        some (chunks ++ [⟨computeSHA256 digest slice, offset, slice.length, slice⟩])
      else
        let maxScan := min remaining maxChunkSize
        let chunkSize := scan buffer offset (maxScan - minChunkSize) minChunkSize 0
        let slice := buffer.subarray offset (offset + chunkSize)
        chunkLoop buffer fuel (offset + chunkSize)
          (chunks ++ [⟨computeSHA256 digest slice, offset, chunkSize, slice⟩])
    else some chunks

/-- `chunkBufferFastCDC`. -/
def chunkBufferFastCDC (fuel : Nat) (buffer : Uint8Array) : Option (List ChunkResult) :=
  chunkLoop digest buffer fuel 0 []

end

/-! ## The cut rule -/

/-- The scan over the bytes that it goes through. -/
def scanBytes : List UInt8 → Nat → UInt32 → Nat
  | [], size, _ => size
  | byte :: rest, size, fp =>
    let fp := gearStep gearTable fp byte
    if fp &&& mask = 0 then size else scanBytes rest (size + 1) fp

theorem scanBytes_bounds (data : List UInt8) (size : Nat) (fp : UInt32) :
    size ≤ scanBytes data size fp ∧ scanBytes data size fp ≤ size + data.length := by
  induction data generalizing size fp with
  | nil => exact ⟨le_rfl, le_rfl⟩
  | cons byte rest ih =>
    rw [scanBytes, List.length_cons]
    split
    · omega
    · have := ih (size + 1) (gearStep gearTable fp byte)
      omega

/-- The scan gets to the end exactly if nothing hits the mask. -/
theorem scanBytes_eq_iff (data : List UInt8) (size : Nat) (fp : UInt32) :
    scanBytes data size fp = size + data.length ↔
      ∀ k, 0 < k → k ≤ data.length → ¬ Hits gearTable mask fp data k := by
  induction data generalizing size fp with
  | nil =>
    refine ⟨fun _ k hpos hle => ?_, fun _ => rfl⟩
    rw [List.length_nil] at hle
    omega
  | cons byte rest ih =>
    rw [scanBytes, List.length_cons]
    split
    · next hhit =>
      refine ⟨fun h => by omega, fun h => absurd hhit (h 1 Nat.one_pos (by omega))⟩
    · next hhit =>
      rw [Nat.add_comm rest.length, ← Nat.add_assoc, ih]
      constructor
      · intro h k hpos hle
        obtain ⟨k, rfl⟩ := Nat.exists_eq_succ_of_ne_zero (Nat.ne_of_gt hpos)
        rcases Nat.eq_zero_or_pos k with rfl | hk
        · exact hhit
        · exact h k hk (by omega)
      · exact fun h k hpos hle => h (k + 1) (Nat.succ_pos k) (by omega)

/-- The scan of the source is the scan of the bytes ahead. -/
theorem scan_eq (h : offset + size + n ≤ buffer.length) :
    scan buffer offset n size fp =
      scanBytes ((buffer.toList.drop (offset + size)).take n) size fp := by
  induction n generalizing size fp with
  | zero => rw [List.take_zero, scan, scanBytes]
  | succ n ih =>
    have hlen := buffer.length_toList
    have hlt : offset + size < buffer.toList.length := by omega
    rw [List.drop_eq_getElem_cons hlt, List.take_succ_cons, scan, scanBytes, View.get?_eq,
      List.getElem?_eq_getElem hlt]
    dsimp only [Option.elim_some]
    rw [ih (by omega), Nat.add_assoc]
    rfl

/-- The size of the first chunk of the bytes `s`. -/
def cutSize (s : List UInt8) : Nat :=
  if s.length ≤ minChunkSize then s.length
  else scanBytes ((s.drop minChunkSize).take (min s.length maxChunkSize - minChunkSize))
    minChunkSize 0

theorem minChunkSize_lt_maxChunkSize : minChunkSize < maxChunkSize := by decide

/-- A chunk has no more bytes than are left and than `MAX_CHUNK_SIZE`, and if it leaves any, at
least `MIN_CHUNK_SIZE`. -/
theorem cutSize_bounds (s : List UInt8) :
    min s.length minChunkSize ≤ cutSize s ∧ cutSize s ≤ min s.length maxChunkSize := by
  have hlt := minChunkSize_lt_maxChunkSize
  unfold cutSize
  split
  · omega
  · have hbounds := scanBytes_bounds
      ((s.drop minChunkSize).take (min s.length maxChunkSize - minChunkSize)) minChunkSize 0
    rw [List.length_take, List.length_drop] at hbounds
    omega

theorem minChunkSize_pos : 0 < minChunkSize := by decide

/-- The cut rule of the web client. -/
def rule : CutRule UInt8 where
  cut := cutSize
  pos {s} hs := by
    have hpos := List.length_pos_iff.2 hs
    have hbounds := cutSize_bounds s
    have := minChunkSize_pos
    omega
  le s := (cutSize_bounds s).2.trans (Nat.min_le_left _ _)

/-- The chunk at `offset`, of the bytes `s` from there on. -/
def chunkOf (digest : List UInt8 → List UInt8) (buffer : Uint8Array) (offset : Nat)
    (s : List UInt8) : ChunkResult :=
  let slice := buffer.subarray offset (offset + cutSize s)
  ⟨computeSHA256 digest slice, offset, cutSize s, slice⟩

/-- The chunks of a buffer. -/
def chunksOf (digest : List UInt8 → List UInt8) (buffer : Uint8Array) : List ChunkResult :=
  rule.tile (chunkOf digest buffer) 0 buffer.toList

section
variable {digest : List UInt8 → List UInt8} {buffer : Uint8Array}

/-- **The loop cuts the tiling's chunks.** -/
theorem chunkLoop_eq (hle : offset ≤ buffer.length) (hfuel : buffer.length - offset < fuel) :
    chunkLoop digest buffer fuel offset chunks =
      some (chunks ++ rule.tile (chunkOf digest buffer) offset (buffer.toList.drop offset)) := by
  induction fuel generalizing offset chunks with
  | zero => omega
  | succ fuel ih =>
    have hlen : (buffer.toList.drop offset).length = buffer.length - offset := by
      rw [List.length_drop, View.length_toList]
    have hmin := minChunkSize_lt_maxChunkSize
    rw [chunkLoop]
    split
    · next hlt =>
      have hne : buffer.toList.drop offset ≠ [] := by
        rw [← List.length_pos_iff]
        omega
      have hbounds := cutSize_bounds (buffer.toList.drop offset)
      rw [hlen] at hbounds
      rw [rule.tile_of_ne _ hne, List.drop_drop]
      change _ = some (chunks ++ chunkOf digest buffer offset (buffer.toList.drop offset) ::
        rule.tile (chunkOf digest buffer) (offset + cutSize (buffer.toList.drop offset))
          (buffer.toList.drop (offset + cutSize (buffer.toList.drop offset))))
      dsimp only
      split
      · next hlast =>
        have hcut : cutSize (buffer.toList.drop offset) = buffer.length - offset := by
          rw [cutSize, if_pos (by omega), hlen]
        have hend : offset + (buffer.length - offset) = buffer.length := by omega
        rw [chunkOf, hcut, hend, List.drop_of_length_le buffer.length_toList.le, CutRule.tile_nil]
        rw [View.length_subarray _ le_rfl]
      · next hmore =>
        have hcut : scan buffer offset (min (buffer.length - offset) maxChunkSize - minChunkSize)
            minChunkSize 0 = cutSize (buffer.toList.drop offset) := by
          rw [scan_eq (by omega), cutSize, if_neg (by omega), hlen, List.drop_drop]
        rw [hcut, ih (by omega) (by have := minChunkSize_pos; omega), List.append_assoc]
        rfl
    · next hge =>
      rw [List.drop_of_length_le (by rw [View.length_toList]; omega), CutRule.tile_nil,
        List.append_nil]

theorem chunkBufferFastCDC_eq (hfuel : buffer.length < fuel) :
    chunkBufferFastCDC digest fuel buffer = some (chunksOf digest buffer) :=
  chunkLoop_eq (Nat.zero_le _) hfuel

/-- The bytes of a chunk are the next ones of the buffer. -/
theorem toList_chunkOf (digest : List UInt8 → List UInt8) (buffer : Uint8Array) (offset : Nat) :
    (chunkOf digest buffer offset (buffer.toList.drop offset)).data.toList =
      (buffer.toList.drop offset).take (cutSize (buffer.toList.drop offset)) := by
  show (buffer.subarray offset _).toList = _
  rw [View.toList_subarray, Nat.add_sub_cancel_left]

/-- Every chunk is cut off the bytes at its offset. -/
theorem exists_of_mem_chunksOf (hd : d ∈ chunksOf digest buffer) :
    ∃ n, buffer.toList.drop n ≠ [] ∧ d = chunkOf digest buffer n (buffer.toList.drop n) := by
  obtain ⟨n, hne, rfl⟩ := rule.exists_of_mem_tile _ hd
  exact ⟨n, hne, by rw [Nat.zero_add]⟩

/-- The bytes of the chunks make up the buffer. -/
theorem flatMap_chunksOf (digest : List UInt8 → List UInt8) (buffer : Uint8Array) :
    ((chunksOf digest buffer).flatMap fun d => d.data.toList) = buffer.toList := by
  have hpieces : (chunksOf digest buffer).map (fun d => d.data.toList) =
      rule.tile (fun _ r => r.take (rule.cut r)) 0 buffer.toList := by
    rw [chunksOf, rule.tile_eq_map_starts, rule.tile_eq_map_starts, List.map_map]
    refine List.map_congr_left fun n _ => ?_
    rw [Function.comp_apply, Nat.zero_add]
    exact toList_chunkOf digest buffer n
  rw [List.flatMap_def, hpieces, rule.flatten_tile]

end

/-! ## The chunks tile the buffer -/

/-- The chunks tile the buffer: their data make it up, contiguous from `0` on, with sizes between
`MIN_CHUNK_SIZE` and `MAX_CHUNK_SIZE`, save that the last may have any down to one byte. -/
structure TilesBuffer (buffer : Uint8Array) (chunks : List ChunkResult) : Prop where
  data : (chunks.flatMap fun d => d.data.toList) = buffer.toList
  first : ∀ d ∈ chunks.head?, d.offset = 0
  next : chunks.IsChain fun d e => e.offset = d.offset + d.size
  size : ∀ d ∈ chunks, d.size = d.data.length
  inner : ∀ d ∈ chunks.dropLast, minChunkSize ≤ d.size ∧ d.size ≤ maxChunkSize
  last : ∀ d ∈ chunks.getLast?, 1 ≤ d.size ∧ d.size ≤ maxChunkSize

theorem tilesBuffer_chunksOf (digest : List UInt8 → List UInt8) (buffer : Uint8Array) :
    TilesBuffer buffer (chunksOf digest buffer) := by
  refine ⟨flatMap_chunksOf digest buffer, ?_, ?_, ?_, ?_, ?_⟩
  · intro d hd
    rw [rule.head?_tile _ hd]
    rfl
  · exact rule.isChain_tile _ (fun _ _ => rfl) 0 _
  · intro d hd
    obtain ⟨n, -, rfl⟩ := exists_of_mem_chunksOf hd
    have hbytes := congrArg List.length (toList_chunkOf digest buffer n)
    rw [View.length_toList] at hbytes
    exact (rule.length_take_cut _).symm.trans hbytes.symm
  · intro d hd
    obtain ⟨n, hmore, rfl⟩ := rule.exists_of_mem_dropLast_tile _ _ d hd
    have hbounds := cutSize_bounds (buffer.toList.drop n)
    change cutSize (buffer.toList.drop n) < _ at hmore
    show minChunkSize ≤ cutSize (buffer.toList.drop n) ∧
      cutSize (buffer.toList.drop n) ≤ maxChunkSize
    omega
  · intro d hd
    obtain ⟨n, hne, rfl⟩ := exists_of_mem_chunksOf (List.mem_of_getLast? hd)
    exact ⟨rule.pos hne, (cutSize_bounds _).2.trans (Nat.min_le_right _ _)⟩

/-- **The web client tiles its buffer.** For every buffer, `chunkBufferFastCDC` terminates, and its
chunks tile the buffer. -/
theorem chunkBufferFastCDC_tiles (digest : List UInt8 → List UInt8) (buffer : Uint8Array) :
    ∃ chunks, (∀ fuel, buffer.length < fuel →
        chunkBufferFastCDC digest fuel buffer = some chunks) ∧ TilesBuffer buffer chunks :=
  ⟨chunksOf digest buffer, fun _ hfuel => chunkBufferFastCDC_eq hfuel,
    tilesBuffer_chunksOf digest buffer⟩

/-! ## The hashes -/

/-- The scan finds no boundary in the bytes `s`: they make one chunk. -/
def OneChunk (s : List UInt8) : Prop :=
  s.length ≤ minChunkSize ∨ s.length ≤ maxChunkSize ∧
    ∀ k, 0 < k → k ≤ s.length - minChunkSize →
      ¬ Hits gearTable mask 0 (s.drop minChunkSize) k

theorem cutSize_eq_length_iff (s : List UInt8) : cutSize s = s.length ↔ OneChunk s := by
  have hbounds := cutSize_bounds s
  have hlt := minChunkSize_lt_maxChunkSize
  rcases Nat.lt_or_ge maxChunkSize s.length with hlong | hshort
  · exact ⟨fun h => by omega, fun h => by rcases h with h | ⟨h, -⟩ <;> omega⟩
  · rcases Nat.lt_or_ge minChunkSize s.length with hgt | hle
    · have hdata : (s.drop minChunkSize).take (min s.length maxChunkSize - minChunkSize) =
          s.drop minChunkSize := by
        rw [Nat.min_eq_left hshort]
        exact List.take_of_length_le (by rw [List.length_drop])
      have hscan := scanBytes_eq_iff (s.drop minChunkSize) minChunkSize 0
      rw [List.length_drop, Nat.add_sub_cancel' hgt.le] at hscan
      rw [cutSize, if_neg (by omega), hdata, hscan]
      exact ⟨fun h => .inr ⟨hshort, h⟩, fun h => (h.resolve_left (by omega)).2⟩
    · exact ⟨fun _ => .inl hle, fun _ => by rw [cutSize, if_pos hle]⟩

/-- No part of `whole` has the digest of `whole`, save `whole` itself. -/
def Separates (digest : List UInt8 → List UInt8) (whole : List UInt8) : Prop :=
  ∀ part, part <:+: whole → digest part = digest whole → part = whole

section
variable {digest : List UInt8 → List UInt8} {buffer : Uint8Array}

/-- The hash of a chunk is that of its bytes exactly if it shows all of the `ArrayBuffer`. -/
theorem hash_chunkOf_iff (hdigest : Separates digest buffer.buffer) (n : Nat) :
    (chunkOf digest buffer n (buffer.toList.drop n)).hash =
        encodeToString (digest (chunkOf digest buffer n (buffer.toList.drop n)).data.toList) ↔
      cutSize (buffer.toList.drop n) = buffer.buffer.length := by
  generalize hd : chunkOf digest buffer n (buffer.toList.drop n) = d
  have hbuffer : d.data.buffer = buffer.buffer := hd ▸ rfl
  have hhash : d.hash = encodeToString (digest buffer.buffer) := hd ▸ rfl
  have hlen : d.data.length = cutSize (buffer.toList.drop n) := by
    rw [← View.length_toList, ← hd, toList_chunkOf]
    exact rule.length_take_cut _
  rw [hhash, encodeToString_injective.eq_iff, ← hlen, ← hbuffer, ← View.toList_eq_buffer_iff]
  constructor
  · intro h
    refine hbuffer ▸ hdigest d.data.toList ?_ ?_
    · exact hbuffer ▸ d.data.toList_isInfix
    · exact hbuffer ▸ h.symm
  · exact fun h => by rw [h]

/-- Every chunk has as many bytes as the `ArrayBuffer` exactly if there is none, or one that is
all of it. -/
theorem forall_size_iff (digest : List UInt8 → List UInt8) (buffer : Uint8Array) :
    (∀ d ∈ chunksOf digest buffer, d.size = buffer.buffer.length) ↔
      buffer.length = 0 ∨ buffer.length = buffer.buffer.length ∧ OneChunk buffer.toList := by
  have hinside := buffer.inside
  have hlen := buffer.length_toList
  rcases eq_or_ne buffer.toList [] with hnil | hne
  · have hzero : buffer.length = 0 := by rw [← hlen, hnil, List.length_nil]
    rw [chunksOf, hnil, CutRule.tile_nil]
    exact ⟨fun _ => .inl hzero, fun _ => nofun⟩
  · have hpos := List.length_pos_iff.2 hne
    have hle : cutSize buffer.toList ≤ buffer.toList.length := rule.le _
    rw [chunksOf, rule.tile_of_ne _ hne, List.forall_mem_cons, ← cutSize_eq_length_iff]
    change cutSize buffer.toList = buffer.buffer.length ∧ _ ↔ _
    constructor
    · rintro ⟨hfirst, -⟩
      exact .inr ⟨by omega, by omega⟩
    · intro h
      obtain ⟨hall, hcut⟩ := h.resolve_left (by omega)
      refine ⟨by omega, ?_⟩
      have hend : buffer.toList.drop (rule.cut buffer.toList) = [] := List.drop_of_length_le hcut.ge
      rw [hend, CutRule.tile_nil]
      exact nofun

end

/-- **The hashes of the web client.** For every view on an `ArrayBuffer` and every digest that tells
the parts of it from the whole: every chunk is addressed by the digest of its own bytes exactly if
the view is empty, or shows all of the `ArrayBuffer` and makes one chunk. -/
theorem hash_eq_iff (digest : List UInt8 → List UInt8) (buffer : Uint8Array) (fuel : Nat)
    (hdigest : Separates digest buffer.buffer) (hfuel : buffer.length < fuel) :
    ∃ chunks, chunkBufferFastCDC digest fuel buffer = some chunks ∧
      ((∀ d ∈ chunks, d.hash = encodeToString (digest d.data.toList)) ↔
        buffer.length = 0 ∨ buffer.length = buffer.buffer.length ∧ OneChunk buffer.toList) := by
  refine ⟨_, chunkBufferFastCDC_eq hfuel, ?_⟩
  rw [← forall_size_iff digest buffer]
  refine forall₂_congr fun d hd => ?_
  obtain ⟨n, -, rfl⟩ := exists_of_mem_chunksOf hd
  exact hash_chunkOf_iff hdigest n

/-- Two bytes in one chunk. -/
theorem hash_eq_whole :
    ∃ chunks, chunkBufferFastCDC (fun bytes => bytes) 3 ⟨[1, 2], 0, 2, by decide⟩ = some chunks ∧
      ∀ d ∈ chunks, d.hash = encodeToString d.data.toList := by
  obtain ⟨chunks, hrun, hiff⟩ := hash_eq_iff (fun bytes => bytes) ⟨[1, 2], 0, 2, by decide⟩ 3
    (fun _ _ h => h) (by decide)
  exact ⟨chunks, hrun, hiff.2 (.inr ⟨rfl, .inl (by decide)⟩)⟩

/-- The second of two bytes: its chunk is addressed by the digest of both. -/
theorem hash_ne_of_offset :
    ∃ chunks, chunkBufferFastCDC (fun bytes => bytes) 2 ⟨[1, 2], 1, 1, by decide⟩ = some chunks ∧
      ∃ d ∈ chunks, d.hash = encodeToString [1, 2] ∧ d.data.toList = [2] ∧
        d.hash ≠ encodeToString d.data.toList :=
  ⟨[⟨encodeToString [1, 2], 0, 1, ⟨[1, 2], 1, 1, by decide⟩⟩], rfl,
    _, List.mem_singleton_self _, rfl, rfl, by decide⟩

end Aegis.Web.FastCdc
