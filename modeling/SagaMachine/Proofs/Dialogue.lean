import SagaMachine.Proofs.Moves

/-!
# The dialogue of a task with the interpreter

The events of a run that are about one task form a dialogue: the body is polled, asks for an
effect, and is polled with the answer. `Dialogue` reads the events in order of time and says
how the dialogue may go on; an event that does not fit in stops it. The body is first polled
with nothing; every later poll answers the effect that was asked for last, once it settled,
with just this outcome; an effect that ended is answered by dropping the body; and an answer
may be kept from a body only when its task is torn down, which then never is done.
-/

namespace SagaMachine

/-- Where a dialogue stands. -/
inductive Phase where
  /-- The body was not polled yet. -/
  | silent
  /-- The body was polled, and has not asked for anything since. -/
  | polled
  /-- The body asked for an effect that has not settled. -/
  | asking (x : EffectId)
  /-- The effect settled, and the body does not know yet. -/
  | answered (x : EffectId) (signal : Signal)
  /-- The body was dropped after it came to its end, or after its last effect ended. -/
  | over
  /-- The body was dropped while it was waiting for a poll. -/
  | torn

/-- The dialogue is over. -/
def Phase.IsClosed : Phase → Prop
  | .over | .torn => True
  | _ => False

/-- The body may be dropped without being torn down. -/
def Phase.IsFinal : Phase → Prop
  | .polled | .answered _ .ended => True
  | _ => False

/-- A dialogue so far: the effects that the body asked for, the last one first. -/
structure Talk where
  asked : List EffectId := []
  phase : Phase := .silent

section

variable (t : TaskId)

/-- An event that has nothing to do with a dialogue. -/
def Talk.Ignores (d : Talk) : Event → Prop
  | .polled u _ => u ≠ t
  | .triggered u _ parent _ => u = t → parent ≠ none
  | .settled x _ => x ∉ d.asked
  | .bodyDropped u => u ≠ t
  | .taskFinished u (.done _) => u = t → d.phase ≠ .torn
  | _ => True

/-- How an event carries a dialogue on. -/
inductive Talk.Step (d : Talk) : Event → Talk → Prop
  /-- The first poll has no input. -/
  | first (h : d.phase = .silent) : Step d (.polled t none) { d with phase := .polled }
  | asks {x : EffectId} {e : Effect} (h : d.phase = .polled) (hx : x ∉ d.asked) :
      Step d (.triggered t x none e) { asked := x :: d.asked, phase := .asking x }
  | settles {x : EffectId} {signal : Signal} (h : d.phase = .asking x) :
      Step d (.settled x signal) { d with phase := .answered x signal }
  /-- The next poll passes what the effect settled with, if that is a value or a fault. -/
  | answers {x : EffectId} {signal : Signal} {a : Answer} (h : d.phase = .answered x signal)
      (ha : opening (some signal) = some (some a)) :
      Step d (.polled t (some a)) { d with phase := .polled }
  | ends (h : d.phase.IsFinal) : Step d (.bodyDropped t) { d with phase := .over }
  | tears (h : ¬ d.phase.IsFinal) (ho : ¬ d.phase.IsClosed) :
      Step d (.bodyDropped t) { d with phase := .torn }
  | ignores {e : Event} (h : d.Ignores t e) : Step d e d

/-- The dialogue of a task according to the events so far, the latest first. -/
inductive Dialogue : List Event → Talk → Prop
  | start : Dialogue [] {}
  | event {past : List Event} {d d' : Talk} {e : Event} (h : Dialogue past d)
      (hs : d.Step t e d') : Dialogue (e :: past) d'

end

namespace Dialogue

variable {t : TaskId} {d d' : Talk} {past es : List Event}

/-- Events that have nothing to do with a dialogue leave it where it is. -/
theorem ignore (h : Dialogue t past d) (hes : ∀ e ∈ es, d.Ignores t e) :
    Dialogue t (es.reverse ++ past) d := by
  induction es generalizing past with
  | nil => exact h
  | cons e es ih =>
    rw [List.reverse_cons, List.append_assoc]
    apply ih (h.event (.ignores (hes e List.mem_cons_self)))
    intro e' he'
    exact hes e' (List.mem_cons_of_mem _ he')

/-- One event after others that have nothing to do with the dialogue. -/
theorem ignore_event {e : Event} (h : Dialogue t past d) (hes : ∀ e ∈ es, d.Ignores t e)
    (hs : d.Step t e d') : Dialogue t ((es ++ [e]).reverse ++ past) d' := by
  rw [List.reverse_append]
  exact (h.ignore hes).event hs

end Dialogue

/-! ## Events that a dialogue ignores -/

section

variable {t : TaskId} {d : Talk} {es : List Event}

theorem Event.IsQuiet.ignored {e : Event} (h : e.IsQuiet) : d.Ignores t e := by
  cases e with
  | uncaught | queued | fetched | dispatched | busEnded | refused | unreadable => trivial
  | _ => exact h.elim

theorem Talk.ignores_withdrawn (d : Talk) (t : TaskId) {ps : List Passage}
    (h : ∀ p ∈ ps, ∃ x w, p = .withdrawn x w) : ∀ e ∈ ps.map Passage.event, d.Ignores t e := by
  intro e he
  obtain ⟨p, hp, rfl⟩ := List.mem_map.1 he
  obtain ⟨x, w, rfl⟩ := h p hp
  trivial

end

end SagaMachine
