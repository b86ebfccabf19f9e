import Aegis.FastCdc.Stream
import Mathlib.Data.List.GetD

/-!
# The built-in tables and configurations (`crates/fastcdc/src/gear.rs`, `Config` of `lib.rs`)

`generate_matrix` fills a Gear table from a seed: a linear congruential generator on `u64`, with a
finalizer for each word. The default configuration and the two presets each take their own seed.
-/

namespace Aegis.FastCdc

namespace Gear

/-- The finalizer of one word. -/
def word (state : UInt64) : UInt32 :=
  let z := (state ^^^ (state >>> 30)) * 0xBF58476D1CE4E5B9
  let z := (z ^^^ (z >>> 27)) * 0x94D049BB133111EB
  (z ^^^ (z >>> 31)).toUInt32

/-- The loop of `generate_matrix`, with `n` words to go. -/
def generateWords : Nat → UInt64 → List UInt32
  | 0, _ => []
  | n + 1, state =>
    let state := state * 6364136223846793005 + 1442695040888963407
    word state :: generateWords n state

/-- `generate_matrix`. -/
def generateMatrix (seed : UInt64) : GearTable := fun byte =>
  (generateWords 256 seed).getD byte.toNat 0

def defaultSeed : UInt64 := 0x0000AE615CDC0001

/-- `GEAR_MATRIX`. -/
def gearMatrix : GearTable := generateMatrix defaultSeed

def smallSeed : UInt64 := 0x0000AE615CDC0032

/-- `presets::SMALL_MATRIX`. -/
def smallMatrix : GearTable := generateMatrix smallSeed

def largeSeed : UInt64 := 0x0000AE615CDC0800

/-- `presets::LARGE_MATRIX`. -/
def largeMatrix : GearTable := generateMatrix largeSeed

theorem length_generateWords (n : Nat) (state : UInt64) : (generateWords n state).length = n := by
  induction n generalizing state with
  | zero => rfl
  | succ n ih => exact congrArg (· + 1) (ih _)

/-- Every entry of a table is a generated word. -/
theorem generateMatrix_mem (seed : UInt64) (byte : UInt8) :
    generateMatrix seed byte ∈ generateWords 256 seed := by
  have hlt : byte.toNat < (generateWords 256 seed).length := by
    rw [length_generateWords]
    exact byte.toNat_lt
  have hget : generateMatrix seed byte = (generateWords 256 seed)[byte.toNat] :=
    List.getD_eq_getElem _ 0 hlt
  rw [hget]
  exact List.getElem_mem hlt

/-- What a check of the generated words says of the table. -/
theorem not_dvd_of_words (h : ((generateWords 256 seed).all fun w => w.toNat % 2 ^ k != 0) = true)
    (byte : UInt8) : ¬ 2 ^ k ∣ (generateMatrix seed byte).toNat := by
  have hword := List.all_eq_true.1 h _ (generateMatrix_mem seed byte)
  rw [bne_iff_ne] at hword
  exact fun hdvd => hword (Nat.mod_eq_zero_of_dvd hdvd)

end Gear

/-- `Config::prompt_default`. -/
def Config.promptDefault : Config where
  minChunk := 64 * 1024
  avgChunk := 1024 * 1024
  maxChunk := 4 * 1024 * 1024
  maskS := 0x0003FFFF
  maskL := 0x0007FFFF
  gear := Gear.gearMatrix
  computeFeatures := true

/-- `Preset`. -/
inductive Preset
  | smallBackup
  | largeMedia

/-- `Config::preset`. -/
def Config.preset : Preset → Config
  | .smallBackup =>
    { minChunk := 8 * 1024, avgChunk := 32 * 1024, maxChunk := 128 * 1024
      maskS := 0x00007FFF, maskL := 0x0000FFFF, gear := Gear.smallMatrix, computeFeatures := true }
  | .largeMedia =>
    { minChunk := 1024 * 1024, avgChunk := 8 * 1024 * 1024, maxChunk := 64 * 1024 * 1024
      maskS := 0x007FFFFF, maskL := 0x00FFFFFF, gear := Gear.largeMatrix, computeFeatures := true }

end Aegis.FastCdc
