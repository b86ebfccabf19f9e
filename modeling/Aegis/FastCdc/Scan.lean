import Mathlib.Tactic

/-!
# The Gear scan of the chunker (`crates/fastcdc/src/scan.rs`, `simd_x86.rs`, `simd_arm.rs`)

`findCutScalar` is the byte-at-a-time scan, the definition of the algorithm. `findCutAvx2` and
`findCutNeon` are the vector paths: each takes a group of bytes, computes the group's suffix sums
and from them every lane's fingerprint, and answers the lowest lane that hits the mask. `findCut`
is the runtime dispatch. The lane identity (`lanes_eq`) makes each group the same number of scalar
steps, so every path answers what the scalar one does (`findCut_eq`); after that the rest of the
development reads only the scalar scan.
-/

namespace Aegis.FastCdc

/-- A Gear table, `[u32; 256]`: one word for each byte value. -/
abbrev GearTable := UInt8 → UInt32

/-- One step of the fingerprint, `fp = (fp << 1).wrapping_add(gear[byte])`. -/
def gearStep (gear : GearTable) (fp : UInt32) (byte : UInt8) : UInt32 :=
  (fp <<< 1) + gear byte

/-- The loop of `find_cut_scalar_from`, at position `pos` with fingerprint `fp`. -/
def findCutLoop (gear : GearTable) (mask : UInt32) : List UInt8 → Nat → UInt32 → Option Nat
  | [], _, _ => none
  | byte :: rest, pos, fp =>
    let fp := gearStep gear fp byte
    if fp &&& mask = 0 then some (pos + 1) else findCutLoop gear mask rest (pos + 1) fp

/-- `find_cut_scalar_from`: the scan seeded with a caller's fingerprint. -/
def findCutScalarFrom (gear : GearTable) (data : List UInt8) (mask fpInit : UInt32) : Option Nat :=
  findCutLoop gear mask data 0 fpInit

/-- `find_cut_scalar`: the scan from fingerprint `0`. -/
def findCutScalar (gear : GearTable) (data : List UInt8) (mask : UInt32) : Option Nat :=
  findCutScalarFrom gear data mask 0

/-! ## The vector paths -/

/-- The suffix-sum chain of a group: the accumulator after each of its bytes. -/
def suffixSums (gear : GearTable) : UInt32 → List UInt8 → List UInt32
  | _, [] => []
  | acc, byte :: rest => gearStep gear acc byte :: suffixSums gear (gearStep gear acc byte) rest

/-- The lanes of a group: `fp` times the lane's power of two, plus the lane's suffix sum. -/
def laneSums (pow : List UInt32) (fp : UInt32) (s : List UInt32) : List UInt32 :=
  List.zipWith (fun p x => fp * p + x) pow s

/-- The lowest lane whose fingerprint hits the mask (`movemask` and `trailing_zeros` on AVX2, the
four lane tests in order on NEON). -/
def firstHit (mask : UInt32) (hv : List UInt32) : Option Nat :=
  hv.findIdx? fun h => h &&& mask = 0

/-- The multipliers of the eight AVX2 lanes. -/
def powAvx2 : List UInt32 := [2, 4, 8, 16, 32, 64, 128, 256]

/-- The multipliers of the four NEON lanes. -/
def powNeon : List UInt32 := [2, 4, 8, 16]

/-- The loop of `find_cut_avx2` over `data.chunks_exact(16)`: two eight-byte halves a pair, the
second half's lanes starting from the fingerprint folded over the first. -/
def findCutAvx2Loop (gear : GearTable) (mask : UInt32) (data : List UInt8) (consumed : Nat)
    (fp : UInt32) : Option Nat :=
  if h : 16 ≤ data.length then
    let sLo := suffixSums gear 0 (data.take 8)
    let sHi := suffixSums gear 0 ((data.drop 8).take 8)
    match firstHit mask (laneSums powAvx2 fp sLo) with
    | some lane => some (consumed + lane + 1)
    | none =>
      let fpMid := (fp <<< 8) + sLo.getD 7 0
      match firstHit mask (laneSums powAvx2 fpMid sHi) with
      | some lane => some (consumed + 8 + lane + 1)
      | none =>
        have : (data.drop 16).length < data.length := by rw [List.length_drop]; omega
        findCutAvx2Loop gear mask (data.drop 16) (consumed + 16) ((fpMid <<< 8) + sHi.getD 7 0)
  else if data = [] then none
  else (findCutScalarFrom gear data mask fp).map (consumed + ·)
termination_by data.length

/-- `find_cut_avx2`. -/
def findCutAvx2 (gear : GearTable) (data : List UInt8) (mask : UInt32) : Option Nat :=
  findCutAvx2Loop gear mask data 0 0

/-- The loop of `find_cut_neon` over `data.chunks_exact(4)`. -/
def findCutNeonLoop (gear : GearTable) (mask : UInt32) (data : List UInt8) (consumed : Nat)
    (fp : UInt32) : Option Nat :=
  if h : 4 ≤ data.length then
    let s := suffixSums gear 0 (data.take 4)
    match firstHit mask (laneSums powNeon fp s) with
    | some lane => some (consumed + lane + 1)
    | none =>
      have : (data.drop 4).length < data.length := by rw [List.length_drop]; omega
      findCutNeonLoop gear mask (data.drop 4) (consumed + 4) ((fp <<< 4) + s.getD 3 0)
  else if data = [] then none
  else (findCutScalarFrom gear data mask fp).map (consumed + ·)
termination_by data.length

/-- `find_cut_neon`. -/
def findCutNeon (gear : GearTable) (data : List UInt8) (mask : UInt32) : Option Nat :=
  findCutNeonLoop gear mask data 0 0

/-- What `active_simd_path` reports: the search path the host's dispatch selects. -/
inductive SimdPath
  | avx2
  | neon
  | scalar
  deriving DecidableEq, Repr

/-- `find_cut`: the search on the path the host selects. -/
def findCut (path : SimdPath) (gear : GearTable) (data : List UInt8) (mask : UInt32) : Option Nat :=
  match path with
  | .avx2 => findCutAvx2 gear data mask
  | .neon => findCutNeon gear data mask
  | .scalar => findCutScalar gear data mask

/-! ## The scalar scan -/

/-- The fingerprint after a run of bytes. -/
def gearFold (gear : GearTable) (fp : UInt32) (data : List UInt8) : UInt32 :=
  data.foldl (gearStep gear) fp

section
variable {gear : GearTable} {mask : UInt32}

/-- The scan's position only shifts its answer. -/
theorem findCutLoop_eq_map (data : List UInt8) (pos : Nat) (fp : UInt32) :
    findCutLoop gear mask data pos fp = (findCutLoop gear mask data 0 fp).map (pos + ·) := by
  induction data generalizing pos fp with
  | nil => rfl
  | cons byte rest ih =>
    simp only [findCutLoop]
    split
    · simp
    · rw [ih (pos + 1), ih (0 + 1), Option.map_map]
      congr 1
      funext n
      simp only [Function.comp_apply]
      omega

/-- The fingerprint after the first `k` bytes hits the mask. -/
def Hits (gear : GearTable) (mask fp : UInt32) (data : List UInt8) (k : Nat) : Prop :=
  gearFold gear fp (data.take k) &&& mask = 0

/-! ## The vector paths answer what the scalar scan does -/

/-- `n` multipliers, each twice the one before. -/
def doubles : UInt32 → Nat → List UInt32
  | _, 0 => []
  | q, n + 1 => q :: doubles (2 * q) n

/-- One more shift of a shifted fingerprint. -/
theorem gearStep_lane (gear : GearTable) (fp q acc : UInt32) (byte : UInt8) :
    fp * (2 * q) + gearStep gear acc byte = gearStep gear (fp * q + acc) byte := by
  have h (a : UInt32) : a <<< 1 = 2 * a := by
    apply UInt32.toNat.inj
    rw [UInt32.toNat_shiftLeft, UInt32.toNat_mul, Nat.shiftLeft_eq]
    simp [Nat.mul_comm]
  simp only [gearStep, h]
  grind

/-- **The lane identity.** A group's lanes are the fingerprints the scalar scan has after each of
the group's bytes. -/
theorem lanes_eq (gear : GearTable) (g : List UInt8) (q fp acc : UInt32) :
    laneSums (doubles (2 * q) g.length) fp (suffixSums gear acc g) =
      suffixSums gear (fp * q + acc) g := by
  induction g generalizing q acc with
  | nil => rfl
  | cons byte rest ih =>
    simp only [List.length_cons, doubles, suffixSums, laneSums, List.zipWith_cons_cons,
      List.cons.injEq]
    refine ⟨gearStep_lane gear fp q acc byte, ?_⟩
    rw [← gearStep_lane]
    exact ih (2 * q) (gearStep gear acc byte)

/-- Scanning a group and then the rest: the group's lowest hit, or the scan of the rest from the
fingerprint folded over the group. -/
theorem findCutLoop_append (g rest : List UInt8) (pos : Nat) (fp : UInt32) :
    findCutLoop gear mask (g ++ rest) pos fp =
      match firstHit mask (suffixSums gear fp g) with
      | some lane => some (pos + lane + 1)
      | none => findCutLoop gear mask rest (pos + g.length) (gearFold gear fp g) := by
  induction g generalizing pos fp with
  | nil => rfl
  | cons byte g ih =>
    simp only [List.cons_append, findCutLoop, suffixSums, firstHit, List.findIdx?_cons]
    by_cases hit : gearStep gear fp byte &&& mask = 0
    · simp [hit]
    · simp only [hit, decide_false, ↓reduceIte, ih, Bool.false_eq_true, firstHit]
      cases (suffixSums gear (gearStep gear fp byte) g).findIdx? fun h => h &&& mask = 0 with
      | none =>
        simp only [Option.map_none, List.length_cons, gearFold, List.foldl_cons]
        congr 1
        omega
      | some lane =>
        simp only [Option.map_some, Option.some.injEq]
        omega

/-- The last suffix sum of a group is the group's fold. -/
theorem getD_suffixSums (gear : GearTable) (g : List UInt8) (acc : UInt32) (hg : g ≠ []) :
    (suffixSums gear acc g).getD (g.length - 1) 0 = gearFold gear acc g := by
  induction g generalizing acc with
  | nil => exact absurd rfl hg
  | cons byte rest ih =>
    cases rest with
    | nil => rfl
    | cons byte' rest => simpa [suffixSums, gearFold] using ih (gearStep gear acc byte) (by simp)

/-- Folding a group from `fp` is folding it from `0` and adding `fp`, shifted by the group's
length. -/
theorem gearFold_eq_add (gear : GearTable) (g : List UInt8) (q fp acc : UInt32) :
    gearFold gear (fp * q + acc) g = fp * (2 ^ g.length * q) + gearFold gear acc g := by
  induction g generalizing q acc with
  | nil => simp [gearFold]
  | cons byte rest ih =>
    have := ih (2 * q) (gearStep gear acc byte)
    simp only [gearFold, List.foldl_cons, List.length_cons] at this ⊢
    rw [← gearStep_lane, this, UInt32.pow_succ, UInt32.mul_assoc (2 ^ rest.length)]

/-- What a vector path does with one group of `n` bytes: its lanes are the scalar fingerprints,
and its fold is the scalar fold. -/
theorem group_eq (hg : g.length = n + 1) (fp : UInt32) :
    laneSums (doubles 2 (n + 1)) fp (suffixSums gear 0 g) = suffixSums gear fp g ∧
      fp * 2 ^ (n + 1) + (suffixSums gear 0 g).getD n 0 = gearFold gear fp g := by
  constructor
  · simpa [hg] using lanes_eq gear g 1 fp 0
  · have h := gearFold_eq_add gear g 1 fp 0
    have hl := getD_suffixSums gear g 0 (by intro h; simp [h] at hg)
    rw [hg, Nat.add_sub_cancel] at hl
    rw [hl]
    simpa [hg] using h.symm

theorem toNat_two_pow (k : Nat) : ((2 : UInt32) ^ k).toNat = 2 ^ k % 2 ^ 32 := by
  induction k with
  | zero => rfl
  | succ k ih => rw [UInt32.pow_succ, UInt32.toNat_mul, ih, pow_succ, Nat.mod_mul_mod]; rfl

/-- The fold of a group of `n + 1` bytes, as the vector paths compute it. -/
theorem fold_group {w : UInt32} (hw : w.toNat = n + 1) (hn : n + 1 < 32) (hg : g.length = n + 1)
    (fp : UInt32) : (fp <<< w) + (suffixSums gear 0 g).getD n 0 = gearFold gear fp g := by
  have hshift : fp <<< w = fp * 2 ^ (n + 1) := by
    apply UInt32.toNat.inj
    rw [UInt32.toNat_shiftLeft, UInt32.toNat_mul, Nat.shiftLeft_eq, hw, Nat.mod_eq_of_lt hn,
      toNat_two_pow]
    simp
  rw [hshift]
  exact (group_eq hg fp).2

/-- The scalar tail of a vector path. -/
theorem tail_eq (data : List UInt8) (consumed : Nat) (fp : UInt32) :
    (if data = [] then none else (findCutScalarFrom gear data mask fp).map (consumed + ·)) =
      findCutLoop gear mask data consumed fp := by
  split
  · next h => subst h; rfl
  · exact (findCutLoop_eq_map ..).symm

/-- The AVX2 loop answers what the scalar loop does: a pair is two groups of eight. -/
theorem findCutAvx2Loop_eq (data : List UInt8) (consumed : Nat) (fp : UInt32) :
    findCutAvx2Loop gear mask data consumed fp = findCutLoop gear mask data consumed fp := by
  induction hn : data.length using Nat.strongRecOn generalizing data consumed fp with
  | ind n ih =>
    rw [findCutAvx2Loop]
    by_cases h16 : 16 ≤ data.length
    · have hlo : (data.take 8).length = 8 := by rw [List.length_take]; omega
      have hhi : ((data.drop 8).take 8).length = 8 := by
        rw [List.length_take, List.length_drop]; omega
      have hsplit : data = data.take 8 ++ ((data.drop 8).take 8 ++ data.drop 16) := by
        rw [show data.drop 16 = (data.drop 8).drop 8 by rw [List.drop_drop],
          List.take_append_drop, List.take_append_drop]
      have hlanes (g : List UInt8) (hg : g.length = 8) (f : UInt32) :
          laneSums powAvx2 f (suffixSums gear 0 g) = suffixSums gear f g := (group_eq hg f).1
      conv_rhs => rw [hsplit, findCutLoop_append, findCutLoop_append]
      simp only [dif_pos h16, hlanes _ hlo, hlanes _ hhi, fold_group (w := 8) rfl (by decide) hlo,
        fold_group (w := 8) rfl (by decide) hhi]
      cases firstHit mask (suffixSums gear fp (data.take 8)) with
      | some lane => rfl
      | none =>
        simp only [hlo, hhi]
        cases firstHit mask
            (suffixSums gear (gearFold gear fp (data.take 8)) ((data.drop 8).take 8)) with
        | some lane => rfl
        | none => exact ih _ (by rw [List.length_drop]; omega) _ _ _ rfl
    · simpa only [dif_neg h16] using tail_eq data consumed fp

/-- The NEON loop answers what the scalar loop does. -/
theorem findCutNeonLoop_eq (data : List UInt8) (consumed : Nat) (fp : UInt32) :
    findCutNeonLoop gear mask data consumed fp = findCutLoop gear mask data consumed fp := by
  induction hn : data.length using Nat.strongRecOn generalizing data consumed fp with
  | ind n ih =>
    rw [findCutNeonLoop]
    by_cases h4 : 4 ≤ data.length
    · have hg : (data.take 4).length = 4 := by rw [List.length_take]; omega
      have hlanes : laneSums powNeon fp (suffixSums gear 0 (data.take 4)) =
          suffixSums gear fp (data.take 4) := (group_eq hg fp).1
      conv_rhs => rw [← List.take_append_drop 4 data, findCutLoop_append]
      simp only [dif_pos h4, hlanes, fold_group (w := 4) rfl (by decide) hg]
      cases firstHit mask (suffixSums gear fp (data.take 4)) with
      | some lane => rfl
      | none =>
        simp only [hg]
        exact ih _ (by rw [List.length_drop]; omega) _ _ _ rfl
    · simpa only [dif_neg h4] using tail_eq data consumed fp

end

/-- **The vector paths answer what the scalar scan does**, for every table, slice and mask. -/
theorem findCutSimd_eq_findCutScalar (gear : GearTable) (data : List UInt8) (mask : UInt32) :
    findCutAvx2 gear data mask = findCutScalar gear data mask ∧
      findCutNeon gear data mask = findCutScalar gear data mask :=
  ⟨findCutAvx2Loop_eq data 0 0, findCutNeonLoop_eq data 0 0⟩

/-- The dispatch's choice of path does not show in its answer. -/
theorem findCut_eq (path : SimdPath) (gear : GearTable) (data : List UInt8) (mask : UInt32) :
    findCut path gear data mask = findCutScalar gear data mask := by
  cases path with
  | avx2 => exact findCutAvx2Loop_eq data 0 0
  | neon => exact findCutNeonLoop_eq data 0 0
  | scalar => rfl

end Aegis.FastCdc
