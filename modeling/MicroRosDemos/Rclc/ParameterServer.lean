import Mathlib.Data.BitVec
import Mathlib.Logic.Function.Basic

/-!
# The parameter server

`on_parameter_changed` puts a requested parameter into effect before the server
stores it: `publish_toogle` into the variable `publish`, `publish_rate_ms` into the
period of the timer. It refuses deletions and nothing else. What is stored is what
is in effect, after each of any requests, just when each of them sets a parameter to
a value of its type and a rate to one that the timer takes and that fits its
nanoseconds (`requests_agree_iff`).
-/

namespace MicroRosDemos.Rclc.ParameterServer

/-- The value of a `Parameter`, with its type. -/
inductive Value
  | notSet
  | bool (b : Bool)
  | int (v : BitVec 64)
  | double (bits : BitVec 64)
deriving DecidableEq

/-- A `Parameter`. -/
structure Parameter where
  name : String
  value : Value

/-- The variable `publish` and the period of the timer, in nanoseconds. -/
structure Live where
  publish : Bool
  period : BitVec 64

/-- What is in effect, and what the parameter server stores. -/
structure State where
  live : Live
  store : String → Option Value

/-- `RCL_MS_TO_NS`. -/
def msToNs (v : BitVec 64) : BitVec 64 := v * 1000000

/-- Whether `rcl_timer_exchange_period` takes a period, `ok` being what else it
depends on: it never takes a negative one. -/
def Taken (ns : BitVec 64) (ok : Bool) : Prop := ok = true ∧ 0 ≤ ns.toInt

instance (ns : BitVec 64) (ok : Bool) : Decidable (Taken ns ok) := inferInstanceAs (Decidable (_ ∧ _))

/-- `rcl_timer_exchange_period`: the period after it. -/
def exchangePeriod (period ns : BitVec 64) (ok : Bool) : BitVec 64 :=
  if Taken ns ok then ns else period

/-- `on_parameter_changed`: its result, and what is in effect after it. The result of
the exchange is only printed. -/
def onParameterChanged (live : Live) (oldParam newParam : Option Parameter) (ok : Bool) : Bool × Live :=
  match oldParam, newParam with
  | none, none => (false, live)
  | some _, none => (false, live)
  | _, some new =>
    if new.name = "publish_toogle" then
      match new.value with
      | .bool b => (true, { live with publish := b })
      | _ => (true, live)
    else if new.name = "publish_rate_ms" then
      match new.value with
      | .int v => (true, { live with period := exchangePeriod live.period (msToNs v) ok })
      | _ => (true, live)
    else (true, live)

/-- A request to the parameter server; `ok` is for the timer. -/
inductive Request
  | set (param : Parameter) (ok : Bool)
  | delete (name : String)

/-- The parameter server asks `on_parameter_changed`, and does what it is told. -/
def handle (s : State) : Request → Bool × State
  | .set param ok =>
    let (ret, live) := onParameterChanged s.live ((s.store param.name).map (⟨param.name, ·⟩)) (some param) ok
    (ret, ⟨live, if ret then Function.update s.store param.name (some param.value) else s.store⟩)
  | .delete name =>
    let (ret, live) := onParameterChanged s.live ((s.store name).map (⟨name, ·⟩)) none true
    (ret, ⟨live, if ret then Function.update s.store name none else s.store⟩)

/-- After the calls in `main`: the timer has a period of a second, and the initial
values are set. -/
def State.start : State where
  live := ⟨true, msToNs 1000⟩
  store := Function.update (Function.update (fun _ => none) "publish_toogle" (some (.bool true)))
    "publish_rate_ms" (some (.int 1000))

/-! ## What is stored and what is in effect -/

/-- What is stored is in effect, the period being the rate in nanoseconds exactly. -/
structure Agree (s : State) : Prop where
  publish : s.store "publish_toogle" = some (.bool s.live.publish)
  period : ∃ v, s.store "publish_rate_ms" = some (.int v) ∧ s.live.period.toInt = v.toInt * 10 ^ 6

/-- A rate in nanoseconds fits 64 bits. -/
def Fits (v : BitVec 64) : Prop := -2 ^ 63 ≤ v.toInt * 10 ^ 6 ∧ v.toInt * 10 ^ 6 < 2 ^ 63

/-- The request sets a rate that does not fit or that the timer does not take. -/
def Request.Inapplicable : Request → Prop
  | .set param ok => param.name = "publish_rate_ms" ∧
    ∃ v, param.value = .int v ∧ ¬ (Fits v ∧ Taken (msToNs v) ok)
  | .delete _ => False

/-- After the request what is stored is in effect, and if the request could not be
applied, it was refused and has changed nothing. -/
structure Honoured (s : State) (r : Request) : Prop where
  agree : Agree (handle s r).2
  refused : r.Inapplicable → handle s r = (false, s)

/-- Each of the requests, one after the other, is honoured. -/
def AllHonoured : State → List Request → Prop
  | _, [] => True
  | s, r :: rs => Honoured s r ∧ AllHonoured (handle s r).2 rs

/-- The request sets the parameter to a value of its type, and a rate to one that fits
and that the timer takes. -/
def Request.Applies : Request → Prop
  | .set param ok =>
    (param.name = "publish_toogle" → ∃ b, param.value = .bool b) ∧
    (param.name = "publish_rate_ms" → ∃ v, param.value = .int v ∧ Fits v ∧ Taken (msToNs v) ok)
  | .delete _ => True

/-- A rate in nanoseconds is exact when it fits. -/
theorem toInt_msToNs {v : BitVec 64} (h : Fits v) : (msToNs v).toInt = v.toInt * 10 ^ 6 := by
  have hfactor : (1000000 : BitVec 64).toInt = 10 ^ 6 := rfl
  obtain ⟨hlo, hhi⟩ := h
  rw [msToNs, BitVec.toInt_mul, hfactor]
  exact Int.bmod_eq_of_le (by omega) (by omega)

theorem toogle_ne_rate : "publish_toogle" ≠ "publish_rate_ms" := by decide

theorem start_agree : Agree .start where
  publish := rfl
  period := ⟨1000, rfl, by decide⟩

variable {s : State}

/-! ## One request -/

theorem onParameterChanged_none (live : Live) (old : Option Parameter) (ok : Bool) :
    onParameterChanged live old none ok = (false, live) := by
  cases old <;> rfl

theorem delete_honoured (h : Agree s) (name : String) : Honoured s (.delete name) := by
  have hrefused : handle s (.delete name) = (false, s) := by
    unfold handle
    dsimp only
    rw [onParameterChanged_none]
    rfl
  refine ⟨?_, fun hno => hno.elim⟩
  rw [hrefused]
  exact h

/-- The old value plays no part in a request to set one. -/
theorem onParameterChanged_some (live : Live) (old : Option Parameter) (new : Parameter) (ok : Bool) :
    onParameterChanged live old (some new) ok = onParameterChanged live none (some new) ok := by
  cases old <;> rfl

/-- A parameter that is neither of the two is stored, and nothing else happens. -/
theorem handle_other (s : State) {param : Parameter} (ok : Bool) (htoogle : param.name ≠ "publish_toogle")
    (hrate : param.name ≠ "publish_rate_ms") :
    handle s (.set param ok) =
      (true, { s with store := Function.update s.store param.name (some param.value) }) := by
  unfold handle
  dsimp only
  rw [onParameterChanged_some, onParameterChanged, if_neg htoogle, if_neg hrate]
  rfl

theorem handle_toogle (s : State) (value : Value) (ok : Bool) :
    handle s (.set ⟨"publish_toogle", value⟩ ok) =
      (true, { s with
        live := match value with
          | .bool b => { s.live with publish := b }
          | _ => s.live
        store := Function.update s.store "publish_toogle" (some value) }) := by
  unfold handle
  dsimp only
  rw [onParameterChanged_some]
  cases value <;> rfl

theorem handle_rate (s : State) (value : Value) (ok : Bool) :
    handle s (.set ⟨"publish_rate_ms", value⟩ ok) =
      (true, { s with
        live := match value with
          | .int v => { s.live with period := exchangePeriod s.live.period (msToNs v) ok }
          | _ => s.live
        store := Function.update s.store "publish_rate_ms" (some value) }) := by
  unfold handle
  dsimp only
  rw [onParameterChanged_some]
  cases value <;> rfl

theorem other_honoured (h : Agree s) {param : Parameter} (ok : Bool)
    (htoogle : param.name ≠ "publish_toogle") (hrate : param.name ≠ "publish_rate_ms") :
    Honoured s (.set param ok) := by
  refine ⟨?_, fun hno => absurd hno.1 hrate⟩
  rw [handle_other s ok htoogle hrate]
  constructor <;> dsimp only
  · rw [Function.update_of_ne htoogle.symm]
    exact h.publish
  · rw [Function.update_of_ne hrate.symm]
    exact h.period

/-- `publish_toogle` is honoured when it is set to a boolean. -/
theorem toogle_honoured_iff (h : Agree s) (value : Value) (ok : Bool) :
    Honoured s (.set ⟨"publish_toogle", value⟩ ok) ↔ ∃ b, value = .bool b := by
  constructor
  · intro hhonoured
    have hstored := hhonoured.agree.publish
    rw [handle_toogle] at hstored
    dsimp only at hstored
    rw [Function.update_self] at hstored
    exact ⟨_, Option.some.inj hstored⟩
  · rintro ⟨b, rfl⟩
    refine ⟨?_, fun hno => absurd hno.1 toogle_ne_rate⟩
    rw [handle_toogle]
    constructor <;> dsimp only
    · rw [Function.update_self]
    · rw [Function.update_of_ne toogle_ne_rate.symm]
      exact h.period

/-- `publish_rate_ms` is honoured when it is set to a number that fits and that the
timer takes: `on_parameter_changed` refuses no other. -/
theorem rate_honoured_iff (h : Agree s) (value : Value) (ok : Bool) :
    Honoured s (.set ⟨"publish_rate_ms", value⟩ ok) ↔
      ∃ v, value = .int v ∧ Fits v ∧ Taken (msToNs v) ok := by
  constructor
  · intro hhonoured
    obtain ⟨v, hstored, _⟩ := hhonoured.agree.period
    rw [handle_rate] at hstored
    dsimp only at hstored
    rw [Function.update_self] at hstored
    refine ⟨v, Option.some.inj hstored, ?_⟩
    by_contra hnot
    have hrefused := hhonoured.refused ⟨rfl, v, Option.some.inj hstored, hnot⟩
    rw [handle_rate] at hrefused
    cases congrArg Prod.fst hrefused
  · rintro ⟨v, rfl, hfits, htaken⟩
    refine ⟨?_, ?_⟩
    · rw [handle_rate]
      constructor <;> dsimp only
      · rw [Function.update_of_ne toogle_ne_rate]
        exact h.publish
      · refine ⟨v, Function.update_self _ _ _, ?_⟩
        rw [exchangePeriod, if_pos htaken]
        exact toInt_msToNs hfits
    · rintro ⟨_, u, hu, hnot⟩
      cases hu
      exact absurd ⟨hfits, htaken⟩ hnot

theorem honoured_iff (h : Agree s) (r : Request) : Honoured s r ↔ r.Applies := by
  cases r with
  | delete name => exact ⟨fun _ => trivial, fun _ => delete_honoured h name⟩
  | set param ok =>
    obtain ⟨name, value⟩ := param
    by_cases htoogle : name = "publish_toogle"
    · subst htoogle
      rw [toogle_honoured_iff h]
      exact ⟨fun hb => ⟨fun _ => hb, fun hno => absurd hno toogle_ne_rate⟩, fun happ => happ.1 rfl⟩
    · by_cases hrate : name = "publish_rate_ms"
      · subst hrate
        rw [rate_honoured_iff h]
        exact ⟨fun hv => ⟨fun hno => absurd hno.symm toogle_ne_rate, fun _ => hv⟩, fun happ => happ.2 rfl⟩
      · exact ⟨fun _ => ⟨fun heq => absurd heq htoogle, fun heq => absurd heq hrate⟩,
          fun _ => other_honoured h ok htoogle hrate⟩

/-! ## Any requests -/

theorem allHonoured_iff (rs : List Request) (h : Agree s) :
    AllHonoured s rs ↔ ∀ r ∈ rs, r.Applies := by
  induction rs generalizing s with
  | nil => exact ⟨fun _ r hr => (by cases hr), fun _ => trivial⟩
  | cons r rs ih =>
    rw [AllHonoured, List.forall_mem_cons, honoured_iff h r]
    exact and_congr_right fun happ => ih ((honoured_iff h r).mpr happ).agree

/-- **Every request is honoured just when each can be applied.** After each of any
requests from the start, what is stored is in effect and a rate that cannot be
applied is refused and changes nothing, if and only if each request sets a parameter
to a value of its type, and a rate to one that fits and that the timer takes. -/
theorem requests_agree_iff (rs : List Request) : AllHonoured .start rs ↔ ∀ r ∈ rs, r.Applies :=
  allHonoured_iff rs start_agree

/-- A request for a rate, with a timer that takes whatever is not negative. -/
def setRate (v : BitVec 64) : Request := .set ⟨"publish_rate_ms", .int v⟩ true

/-- A rate of -1 is stored, and the timer keeps its period of a second; a rate that does
not fit is stored, and the timer has what is left of it. -/
theorem rate_disagrees :
    ((handle .start (setRate (-1))).1 = true ∧
      (handle .start (setRate (-1))).2.live.period.toInt = 10 ^ 9 ∧
      ¬ Agree (handle .start (setRate (-1))).2) ∧
    ((handle .start (setRate 0x400000000000000)).1 = true ∧
      (handle .start (setRate 0x400000000000000)).2.live.period = 0 ∧
      ¬ Agree (handle .start (setRate 0x400000000000000)).2) := by
  refine ⟨⟨rfl, rfl, fun h => ?_⟩, rfl, by decide +kernel, fun h => ?_⟩
  · obtain ⟨v, hstored, hperiod⟩ := h.period
    cases hstored
    exact absurd hperiod (by decide)
  · obtain ⟨v, hstored, hperiod⟩ := h.period
    cases hstored
    exact absurd hperiod (by decide +kernel)

end MicroRosDemos.Rclc.ParameterServer
