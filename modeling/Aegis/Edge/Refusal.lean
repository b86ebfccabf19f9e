import Aegis.Edge.Agreement

/-!
# What a refusal tells

The response to a request that is stopped has the name of the check in a header, so two refusals are
alike only if they come from one check.
-/

namespace Aegis.Edge

open Proc Ecma

/-- The response is a 401. -/
def Refused (r : Option Response) : Prop := r.map Response.status = some 401

theorem Reason.text_inj {a b : Reason} (h : a.text = b.text) : a = b := by
  cases a <;> cases b <;> first | rfl | (revert h; decide)

theorem unauthorized_inj (h : unauthorized a = unauthorized b) : a = b := by
  have hheaders := congrArg Response.headers h
  simp only [unauthorized, List.cons.injEq, Prod.mk.injEq, true_and, and_true] at hheaders
  exact Reason.text_inj hheaders

/-- Every request is answered but one that ends in an exception. -/
theorem Exchange.answered_iff (x : Exchange) (hmac : Auth.Hmac) :
    (x.outcome hmac = some validated ∨ Refused (x.outcome hmac)) ↔ ¬ x.Breaks hmac := by
  constructor
  · intro h hbreaks
    rw [outcome_of_breaks hbreaks] at h
    rcases h with h | h
    · cases h
    · cases h
  · intro hnot
    rcases x.settled hmac with hbreaks | ⟨reason, hstops⟩ | hadmits
    · exact absurd hbreaks hnot
    · exact .inr (by rw [outcome_of_stops hstops]; rfl)
    · exact .inl (outcome_of_admits hadmits)

theorem Exchange.stops_of_refused (x : Exchange) (h : Refused (x.outcome hmac)) :
    ∃ reason, x.Stops hmac reason := by
  rcases x.settled hmac with hbreaks | hstops | hadmits
  · rw [outcome_of_breaks hbreaks] at h
    cases h
  · exact hstops
  · rw [outcome_of_admits hadmits] at h
    cases h

/-- **Two refusals are alike** exactly if they come from one check: each of two requests gets the
200 or a 401, and the same response as the other where both are refused, iff neither ends in an
exception and they are not stopped at different checks. -/
theorem refusals_alike_iff (hmac : Auth.Hmac) (x y : Exchange) :
    ((x.outcome hmac = some validated ∨ Refused (x.outcome hmac)) ∧
      (y.outcome hmac = some validated ∨ Refused (y.outcome hmac)) ∧
      (Refused (x.outcome hmac) → Refused (y.outcome hmac) → x.outcome hmac = y.outcome hmac)) ↔
    ¬ x.Breaks hmac ∧ ¬ y.Breaks hmac ∧
      ∀ a b, x.Stops hmac a → y.Stops hmac b → a = b := by
  rw [x.answered_iff hmac, y.answered_iff hmac]
  refine and_congr_right fun _ => and_congr_right fun _ =>
    ⟨fun h a b ha hb => ?_, fun h hx hy => ?_⟩
  · rw [Exchange.outcome_of_stops ha, Exchange.outcome_of_stops hb] at h
    exact unauthorized_inj (Option.some.inj (h rfl rfl))
  · obtain ⟨a, ha⟩ := x.stops_of_refused hx
    obtain ⟨b, hb⟩ := y.stops_of_refused hy
    rw [Exchange.outcome_of_stops ha, Exchange.outcome_of_stops hb, h a b ha hb]

/-! ## Requests that can be told apart -/

/-- A request to the worker at 500 s, with the current key and no nonce store. -/
def sampleExchange (request : Request) : Exchange where
  request := request
  now := 500000
  later := 500000
  keys _ := .ok (KeysRecord.value ⟨.ofInt 1, [(['1'], ⟨encodeToString [7], none⟩)]⟩)
  reply _ := .networkError

/-- **Two refusals that differ**, and a request without a response: one to read a chunk, one that
lacks its query, and one with a valid token while the nonce store can not be reached. -/
theorem refusals_differ :
    (sampleExchange ⟨"GET", sampleBase.text ++ Auth.chunksPath⟩).outcome constantMac =
        some ⟨401, some "401 Unauthorized", [("x-aegis-reject", "route")]⟩ ∧
      (sampleExchange ⟨"PUT", sampleBase.text ++ Auth.chunksPath⟩).outcome constantMac =
        some ⟨401, some "401 Unauthorized", [("x-aegis-reject", "structure")]⟩ ∧
      (sampleExchange ⟨"PUT", (sampleToken constantMac).url sampleBase.text⟩).outcome constantMac =
        none := by
  decide +kernel

end Aegis.Edge
