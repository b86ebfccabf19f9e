import Aegis.Lib.Decimal
import Aegis.Uuid

/-!
# Token claims

`Claims` with its canonical message and its format checks (internal/auth/hmac.go). The message joins
its fields with colons; the checks keep colons out of every field, so the message determines the
claims.
-/

namespace Aegis.Auth

/-! ## Claims -/

/-- `Claims`. -/
structure Claims where
  tenantId : Uuid
  blockHash : List Char
  expiryUnix : Int64
  keyVersion : Int
  endpointId : List Char
  nonceHex : List Char
  deriving DecidableEq

/-- `isLowerHex`. -/
def isLowerHex (s : List Char) : Bool := s.all isLowerHexDigit

/-- The characters of an endpoint id. -/
def isEndpointChar (c : Char) : Bool :=
  '0' ≤ c && c ≤ '9' || 'A' ≤ c && c ≤ 'Z' || 'a' ≤ c && c ≤ 'z' || c == '_' || c == '-'

/-- `isEndpointSafe`. -/
def isEndpointSafe (s : List Char) : Bool := s.all isEndpointChar

/-- What can be wrong with the form of a token. -/
inductive Malformed
  | emptyBlockHash
  | blockHash
  | endpointId
  | keyVersion
  | nonce
  | signatureEncoding
  | signatureDecode
  deriving DecidableEq

/-- The text after `auth: malformed token: `. -/
def Malformed.text : Malformed → String
  | .emptyBlockHash => "empty block hash"
  | .blockHash => "block hash must be 64 lowercase hex chars"
  | .endpointId => "endpoint id charset"
  | .keyVersion => "key version out of range"
  | .nonce => "nonce encoding"
  | .signatureEncoding => "signature encoding"
  | .signatureDecode => "signature decode"

/-- `msgDomain`, which separates these signatures from other uses of the keys. -/
def msgDomain : List Char := ['a', 'e', 'g', 'i', 's', '1']

/-- The fields of the message, in order. -/
def Claims.fields (c : Claims) : List (List Char) :=
  [msgDomain, formatInt c.keyVersion, c.tenantId.text, c.blockHash,
    formatInt c.expiryUnix.toInt, c.endpointId, c.nonceHex]

/-- `message`. -/
def Claims.message (c : Claims) : List Char :=
  msgDomain ++ [':'] ++ formatInt c.keyVersion ++ [':'] ++ c.tenantId.text ++ [':'] ++
    c.blockHash ++ [':'] ++ formatInt c.expiryUnix.toInt ++ [':'] ++ c.endpointId ++ [':'] ++
    c.nonceHex

/-- `valid`: what is wrong, if anything. -/
def Claims.valid (c : Claims) : Option Malformed :=
  if c.blockHash = [] then some .emptyBlockHash
  else if c.blockHash.length ≠ 64 || !isLowerHex c.blockHash then some .blockHash
  else if c.endpointId = [] || c.endpointId.length > 64 || !isEndpointSafe c.endpointId then
    some .endpointId
  else if c.keyVersion < 1 || c.keyVersion > 1000000 then some .keyVersion
  else if c.nonceHex.length ≠ 32 || !isLowerHex c.nonceHex then some .nonce
  else none

/-- A check that finds nothing leaves it to the checks after it. -/
theorem check_eq_none_iff {c : Prop} [Decidable c] {e : Malformed} :
    (if c then some e else rest) = none ↔ ¬ c ∧ rest = none := by
  by_cases hc : c <;> simp [hc]

/-- What the checks let through. -/
theorem Claims.valid_iff {c : Claims} :
    c.valid = none ↔
      c.blockHash.length = 64 ∧ isLowerHex c.blockHash = true ∧
      c.endpointId ≠ [] ∧ c.endpointId.length ≤ 64 ∧ isEndpointSafe c.endpointId = true ∧
      1 ≤ c.keyVersion ∧ c.keyVersion ≤ 1000000 ∧
      c.nonceHex.length = 32 ∧ isLowerHex c.nonceHex = true := by
  have hempty : c.blockHash.length = 64 → c.blockHash ≠ [] := by
    intro hlen hnil
    simp [hnil] at hlen
  simp only [valid, check_eq_none_iff, Bool.or_eq_true, decide_eq_true_eq, not_or, not_not, not_lt,
    Bool.not_eq_true', Bool.not_eq_false, gt_iff_lt, and_true, and_assoc]
  exact and_iff_right_of_imp fun h => hempty h.1

/-! ## The message determines the claims -/

theorem Claims.message_eq (c : Claims) : c.message = [':'].intercalate c.fields := by
  simp only [message, fields, List.intercalate_cons_cons, List.intercalate_singleton,
    List.append_assoc]

theorem not_mem_of_isLowerHex (h : isLowerHex s = true) : ':' ∉ s := by
  intro hc
  have := List.all_eq_true.1 h _ hc
  cases this

theorem not_mem_of_isEndpointSafe (h : isEndpointSafe s = true) : ':' ∉ s := by
  intro hc
  have := List.all_eq_true.1 h _ hc
  cases this

theorem not_mem_formatInt (i : Int) : ':' ∉ formatInt i := by
  intro hc
  rcases of_mem_formatInt hc with hdigit | hsign
  · cases hdigit
  · cases hsign

theorem not_mem_text (u : Uuid) : ':' ∉ u.text := by
  intro hc
  rcases Uuid.of_mem_grouped hc with hdigit | hsep
  · cases hdigit
  · cases hsep

/-- No field has a colon. -/
theorem Claims.colonFree {c : Claims} (h : c.valid = none) : ∀ f ∈ c.fields, ':' ∉ f := by
  obtain ⟨-, hhash, -, -, hendpoint, -, -, -, hnonce⟩ := Claims.valid_iff.1 h
  have hdomain : ':' ∉ msgDomain := by decide
  unfold fields
  simp only [List.forall_mem_cons, List.not_mem_nil, false_implies, implies_true, and_true]
  exact ⟨hdomain, not_mem_formatInt _, not_mem_text _, not_mem_of_isLowerHex hhash,
    not_mem_formatInt _, not_mem_of_isEndpointSafe hendpoint, not_mem_of_isLowerHex hnonce⟩

/-- Messages of colon-free fields agree only field by field. -/
theorem Claims.fields_eq_of_message {c c' : Claims} (h : ∀ f ∈ c.fields, ':' ∉ f)
    (h' : ∀ f ∈ c'.fields, ':' ∉ f) (hm : c.message = c'.message) : c.fields = c'.fields := by
  rw [message_eq, message_eq] at hm
  rw [← List.splitOn_intercalate ':' h (List.cons_ne_nil _ _), hm,
    List.splitOn_intercalate ':' h' (List.cons_ne_nil _ _)]

/-- **The message determines the claims.** -/
theorem Claims.message_inj {c c' : Claims} (h : c.valid = none) (h' : c'.valid = none)
    (hm : c.message = c'.message) : c = c' := by
  have hfields := fields_eq_of_message (colonFree h) (colonFree h') hm
  simp only [fields, List.cons.injEq, and_true, true_and] at hfields
  obtain ⟨hversion, htenant, hhash, hexpiry, hendpoint, hnonce⟩ := hfields
  cases c
  cases c'
  simp only [Claims.mk.injEq]
  exact ⟨Uuid.text_inj htenant, hhash, Int64.toInt_inj.1 (formatInt_inj hexpiry),
    formatInt_inj hversion, hendpoint, hnonce⟩

/-- The six separators are all the colons. -/
theorem Claims.count_message {c : Claims} (h : c.valid = none) : c.message.count ':' = 6 := by
  have hfree := colonFree h
  simp only [fields, List.forall_mem_cons, ← List.count_eq_zero] at hfree
  simp [message, List.count_append, hfree]

/-- **The messages are a prefix code.** What follows a message in a longer one has no colon, so it
continues the nonce, and a nonce has its fixed length. -/
theorem Claims.message_decodable (c c' : Claims) (h : c.valid = none) (h' : c'.valid = none) :
    (c.message = c'.message → c = c') ∧ (c.message <+: c'.message → c.message = c'.message) := by
  refine ⟨message_inj h h', fun ⟨t, ht⟩ => ?_⟩
  have hfree : ':' ∉ t := by
    have hcount := congrArg (List.count ':') ht
    rw [List.count_append, count_message h, count_message h'] at hcount
    exact List.count_eq_zero.1 (by omega)
  have hlonger : ∀ f ∈ { c with nonceHex := c.nonceHex ++ t : Claims }.fields, ':' ∉ f := by
    have := colonFree h
    simp only [fields, List.forall_mem_cons, List.mem_append, not_or] at this ⊢
    simp [this, hfree]
  have hfields := fields_eq_of_message hlonger (colonFree h') (by rw [← ht]; simp [message])
  simp only [fields, List.cons.injEq] at hfields
  have hlen := congrArg List.length hfields.2.2.2.2.2.2.1
  rw [List.length_append, (valid_iff.1 h).2.2.2.2.2.2.2.1, (valid_iff.1 h').2.2.2.2.2.2.2.1] at hlen
  rw [List.eq_nil_of_length_eq_zero (by omega : t.length = 0)] at ht
  simpa using ht

theorem Claims.message_decodable_versions :
    ∃ c c' : Claims, c.valid = none ∧ c'.valid = none ∧ c.keyVersion = 1 ∧ c'.keyVersion = 12 ∧
      ¬ c.message <+: c'.message := by
  let c (v : Int) : Claims := ⟨1, List.replicate 64 'a', -1, v, ['e'], List.replicate 32 '0'⟩
  obtain ⟨hinj, hcode⟩ := message_decodable (c 1) (c 12) (by decide) (by decide)
  refine ⟨c 1, c 12, by decide, by decide, rfl, rfl, fun hp => ?_⟩
  cases hinj (hcode hp)

end Aegis.Auth
