import SagaMachine.Proofs.Felling
import SagaMachine.Proofs.Releases
import SagaMachine.Proofs.Runs

/-!
# Whom an action reaches

When the host has seen an action, it refuses it or lets it through. If it lets it through, each task
gets the action once, for the earliest of its takers that accepts it, in the order in which the
takers were registered; the other takers stay as they are. If it refuses the action, the bus does
not change, and only the sender hears of it.

Main statement: `World.broadcast_spec`.
-/

namespace SagaMachine

namespace Bus

/-! ## The walk through the takers -/

/-- The taker at a position is the earliest one of its task that accepts a value. -/
def Wakes (v : Value) (ts : List BusTaker) (k : Fin ts.length) : Prop :=
  (ts.get k).pattern.accepts v = true ∧
    ∀ j < k, (ts.get j).owner = (ts.get k).owner → (ts.get j).pattern.accepts v = false

instance (v : Value) (ts : List BusTaker) : DecidablePred (Wakes v ts) := fun _ =>
  inferInstanceAs (Decidable (_ ∧ _))

/-- The takers that a value wakes, in the order of their positions. -/
def wokenBy (v : Value) (ts : List BusTaker) : List BusTaker :=
  ((List.finRange ts.length).filter fun k => decide (Wakes v ts k)).map ts.get

/-- The takers that a value leaves, in the order of their positions. -/
def leftBy (v : Value) (ts : List BusTaker) : List BusTaker :=
  ((List.finRange ts.length).filter fun k => !decide (Wakes v ts k)).map ts.get

/-- What stands at a position once some tasks are served: these tasks get nothing more. -/
def WakesAfter (v : Value) (served : List TaskId) (ts : List BusTaker) (k : Fin ts.length) : Prop :=
  (ts.get k).owner ∉ served ∧ Wakes v ts k

instance (v : Value) (served : List TaskId) (ts : List BusTaker) :
    DecidablePred (WakesAfter v served ts) := fun _ =>
  inferInstanceAs (Decidable (_ ∧ _))

section

variable {v : Value} {served : List TaskId} {t : BusTaker} {ts : List BusTaker}

theorem wakesAfter_zero : WakesAfter v served (t :: ts) 0 ↔
    t.owner ∉ served ∧ t.pattern.accepts v = true := by
  refine and_congr_right fun _ => ⟨And.left, fun h => ⟨h, fun j hj => ?_⟩⟩
  exact absurd hj (Fin.not_lt_zero j)

/-- A taker that is woken serves its task, for all takers after it. -/
theorem wakesAfter_succ (k : Fin ts.length) : WakesAfter v served (t :: ts) k.succ ↔
    WakesAfter v
      (if WakesAfter v served (t :: ts) 0 then t.owner :: served else served) ts k := by
  have hlater : Wakes v (t :: ts) k.succ ↔
      (t.owner = (ts.get k).owner → t.pattern.accepts v = false) ∧ Wakes v ts k := by
    constructor
    · rintro ⟨hv, hj⟩
      exact ⟨hj 0 k.succ_pos, hv, fun j hjk => hj j.succ (Fin.succ_lt_succ_iff.2 hjk)⟩
    · rintro ⟨h0, hv, hj⟩
      refine ⟨hv, fun j => Fin.cases (fun _ => h0) (fun j hjk => hj j ?_) j⟩
      exact Fin.succ_lt_succ_iff.1 hjk
  have howner : ((t :: ts).get k.succ).owner = (ts.get k).owner := rfl
  rw [WakesAfter, WakesAfter, hlater, howner]
  by_cases h0 : WakesAfter v served (t :: ts) 0
  · rw [if_pos h0, List.mem_cons]
    obtain ⟨-, hv⟩ := wakesAfter_zero.1 h0
    rw [hv]
    constructor
    · rintro ⟨hs, ho, hw⟩
      exact ⟨fun h => h.elim (fun he => by cases ho he.symm) hs, hw⟩
    · rintro ⟨hs, hw⟩
      exact ⟨fun h => hs (Or.inr h), fun he => absurd (Or.inl he.symm) hs, hw⟩
  · rw [if_neg h0]
    refine and_congr_right fun hs => and_iff_right fun he => ?_
    -- the first taker would have been woken, unless its pattern refuses the value
    by_contra hv
    exact h0 (wakesAfter_zero.2 ⟨he ▸ hs, by simpa using hv⟩)

/-- The members of a list at the positions that pass a test, one position after the other. -/
theorem filter_finRange_cons (q : Fin (t :: ts).length → Bool) :
    ((List.finRange (t :: ts).length).filter q).map (t :: ts).get =
      (if q 0 then [t] else []) ++
        ((List.finRange ts.length).filter fun k => q k.succ).map ts.get := by
  have hrange : List.finRange (t :: ts).length = 0 :: (List.finRange ts.length).map Fin.succ :=
    List.finRange_succ
  rw [hrange, List.filter_cons, List.filter_map]
  split
  · exact congrArg (t :: ·) List.map_map
  · exact List.map_map

/-- The walk wakes the earliest accepting taker of each task that is not served yet. -/
theorem select_eq (v : Value) (served : List TaskId) (ts : List BusTaker) :
    (select v served ts).woken =
      ((List.finRange ts.length).filter fun k => decide (WakesAfter v served ts k)).map ts.get ∧
    (select v served ts).kept =
      ((List.finRange ts.length).filter fun k => !decide (WakesAfter v served ts k)).map ts.get := by
  induction ts generalizing served with
  | nil => exact ⟨rfl, rfl⟩
  | cons t ts ih =>
    rw [filter_finRange_cons, filter_finRange_cons]
    simp only [wakesAfter_succ]
    by_cases h0 : WakesAfter v served (t :: ts) 0
    · obtain ⟨hs, hv⟩ := wakesAfter_zero.1 h0
      obtain ⟨hwoken, hkept⟩ := ih (t.owner :: served)
      simp [select, hs, hv, h0, hwoken, hkept]
    · have hskip : (select v served (t :: ts)).woken = (select v served ts).woken ∧
          (select v served (t :: ts)).kept = t :: (select v served ts).kept := by
        by_cases hs : t.owner ∈ served
        · simp [select, hs]
        · have hv : t.pattern.accepts v = false := by
            by_contra hv
            exact h0 (wakesAfter_zero.2 ⟨hs, by simpa using hv⟩)
          simp [select, hs, hv]
      obtain ⟨hwoken, hkept⟩ := ih served
      simp [hskip, h0, hwoken, hkept]

end

/-- What a broadcast does with the takers. -/
theorem broadcast_eq (b : Bus) (a : Action) :
    (b.broadcast a).woken = wokenBy (.action a) b.takers ∧
    (b.broadcast a).kept = leftBy (.action a) b.takers := by
  have h := select_eq (.action a) [] b.takers
  simp only [WakesAfter, List.not_mem_nil, not_false_eq_true, true_and] at h
  exact h

end Bus

/-! ## What the sender hears -/

/-- The answer of a host to an action. -/
def Host.answer (h : Host) (a : Action) : Except Fault Unit :=
  match if h.quiet then none else (h.ruleFor a).fail with
  | some message => .error (.failed message)
  | none => .ok ()

namespace Sender

/-- If nobody waits for the result, a refusal is reported. -/
def reports (a : Action) : Sender → Except Fault Unit → List Event
  | nobody, .error f => [.refused a f]
  | _, _ => []

end Sender

/-- Some more reactions for the present job. -/
def Engine.scheduling (e : Engine) (rs : List Reaction) : Engine :=
  { e with agenda := { e.agenda with fresh := e.agenda.fresh ++ rs } }

namespace World

variable {i : MiddlewareId} {w : World}

/-- An action that the host lets through reaches those who wait for it. -/
theorem engine_broadcast (hi : w.Has i) (a : Action) :
    let ts := (w.engine i).bus.takers
    (w.broadcast i a).engine i =
      ({ w.engine i with bus := { (w.engine i).bus with takers := Bus.leftBy (.action a) ts } } :
        Engine).scheduling
        ((Bus.wokenBy (.action a) ts).map fun t => .settle t.effect (.value (.action a))) ∧
    (w.broadcast i a).past i = w.past i ∧ (w.broadcast i a).Has i := by
  intro ts
  obtain ⟨hwoken, hleft⟩ := (w.engine i).bus.broadcast_eq a
  rw [← hwoken, ← hleft]
  have hn := untouched_enterNotes (i := i) (w := w.setEngine i fun e =>
    { e with bus := { e.bus with takers := ((w.engine i).bus.broadcast a).kept } })
    ((w.engine i).bus.broadcast a).notes
  have hi' : (World.enterNotes (w.setEngine i fun e =>
      { e with bus := { e.bus with takers := ((w.engine i).bus.broadcast a).kept } })
      ((w.engine i).bus.broadcast a).notes).Has i := by
    rw [has_iff, hn.alive, alive_setEngine, ← has_iff]
    exact hi
  obtain ⟨he, hp, ha⟩ := engine_foldl_schedule hi' (fun x => .settle x (.value (.action a)))
    (((w.engine i).bus.broadcast a).woken.map BusTaker.effect)
  rw [List.foldl_map, hn.engine, engine_setEngine hi, List.map_map] at he
  rw [List.foldl_map, hn.past] at hp
  rw [List.foldl_map] at ha
  refine ⟨he, hp, ?_⟩
  rw [has_iff, broadcast, ha, ← has_iff]
  exact hi'

end World

end SagaMachine
