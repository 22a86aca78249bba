import Mathlib.Tactic.ByContra
import SagaMachine.Proofs.Moves

/-!
# The frames of a middleware

The frames that work on one engine are always stacked in the same way (`Stack`): the
driver at the bottom, on it at most one job, one step of a task or the return of one, on
this the frames that end tasks, and everywhere in between frames that cancel tasks because
user code asked for it. In particular steps never nest, and a task fails only while no
step is under way.

Main statement: `Framed.move`.
-/

namespace SagaMachine

/-- The task whose step a frame is part of. -/
def Instr.turn? : Instr → Option TaskId
  | .poll turn _ _ | .advance turn _ _ | .polled turn _ _ | .trigger turn _ _ _
  | .answer turn _ _ _ _ _ | .cancelDone turn _ _ _ | .begun turn _ _ _ | .leave turn _ _ =>
    some turn.task
  | _ => none

/-- A parent completes. -/
def Cascade.IsComplete : Cascade → Prop
  | .complete _ => True
  | .abort .. => False

/-- A frame that cancels tasks, or completes one, while some task is stepped or none. -/
def Instr.Cancels (current : Option TaskId) : Instr → Prop
  | .cancel .. | .cascade _ (.complete _) => True
  | .cancelEach _ _ cascades => ∀ c ∈ cascades, c.IsComplete
  | .cancelOne turn wasCurrent _ cascades =>
    wasCurrent = decide (current = some turn.task) ∧ ∀ c ∈ cascades, c.IsComplete
  | _ => False

/-- A frame that ends a task while no step is under way. -/
def Instr.Ends : Instr → Prop
  | .abort .. | .abortDone _ _ false | .conclude _ | .cascade _ (.abort ..) => True
  | _ => False

/-- A frame that carries out a job of the driver, or the return of a body. -/
def Instr.Works : Instr → Prop
  | .perform .. | .returned .. => True
  | x => x.IsJob

/-- A frame of a dispatch that started the driver. -/
def Instr.Calls : Instr → Prop
  | .emit _ _ (.caller _) | .forwarded _ _ (.caller _) => True
  | _ => False

/-- How the frames of middleware `i` are stacked while some task is stepped, or none. -/
inductive Stack (i : MiddlewareId) : Option TaskId → List Instr → Prop
  | rest : Stack i none []
  | drain : Stack i none [.drain i]
  | works {x} (h : x.Works) : Stack i none [x, .drain i]
  | calls {x} (h : x.Calls) : Stack i none [x]
  | turn {t x} (h : x.turn? = some t) : Stack i (some t) [x, .drain i]
  | cancels {d x F} (h : x.Cancels d) (hF : F ≠ []) (hs : Stack i d F) : Stack i d (x :: F)
  | ends {x F} (h : x.Ends) (hF : F ≠ []) (hs : Stack i none F) : Stack i none (x :: F)

namespace Stack

variable {i : MiddlewareId} {d : Option TaskId} {x : Instr} {F G : List Instr}

theorem of_drain (h : Stack i d (.drain i :: F)) : d = none ∧ F = [] := by
  cases h with
  | drain => exact ⟨rfl, rfl⟩
  | works h | calls h | turn h | cancels h | ends h => cases h

theorem of_works (h : Stack i d (x :: F)) (hx : x.Works) : d = none ∧ F = [.drain i] := by
  cases h with
  | works => exact ⟨rfl, rfl⟩
  | drain => exact hx.elim
  | turn h =>
    cases x with
    | perform | emit | forwarded | schedule | returned => cases h
    | _ => exact hx.elim
  | calls h | cancels h | ends h =>
    cases x with
    | perform | schedule | returned => exact h.elim
    | emit j a sender | forwarded j a sender =>
      cases sender with
      | caller => exact hx.elim
      | _ => exact h.elim
    | _ => exact hx.elim

theorem of_calls (h : Stack i d (x :: F)) (hx : x.Calls) : d = none ∧ F = [] := by
  cases h with
  | calls => exact ⟨rfl, rfl⟩
  | drain => exact hx.elim
  | turn h =>
    cases x with
    | emit | forwarded => cases h
    | _ => exact hx.elim
  | works h | cancels h | ends h =>
    cases x with
    | emit j a sender | forwarded j a sender =>
      cases sender with
      | caller => exact h.elim
      | _ => exact hx.elim
    | _ => exact hx.elim

theorem of_turn (h : Stack i d (x :: F)) {t : TaskId} (hx : x.turn? = some t) :
    d = some t ∧ F = [.drain i] := by
  cases h with
  | turn h =>
    rw [hx] at h
    cases h
    exact ⟨rfl, rfl⟩
  | drain => cases hx
  | works h | calls h | cancels h | ends h =>
    cases x with
    | poll | advance | polled | trigger | answer | cancelDone | begun | leave => exact h.elim
    | _ => cases hx

theorem of_cancels (h : Stack i d (x :: F)) (hx : x.Cancels d) : F ≠ [] ∧ Stack i d F := by
  cases h with
  | cancels _ hF hs => exact ⟨hF, hs⟩
  | drain => exact hx.elim
  | turn h =>
    cases x with
    | poll | advance | polled | trigger | answer | cancelDone | begun | leave => exact hx.elim
    | _ => cases h
  | ends _ hF hs => exact ⟨hF, hs⟩
  | works h | calls h =>
    cases x with
    | perform | schedule | emit | forwarded | returned => exact hx.elim
    | _ => exact h.elim

theorem of_ends (h : Stack i d (x :: F)) (hx : x.Ends) : d = none ∧ F ≠ [] ∧ Stack i none F := by
  cases h with
  | ends _ hF hs => exact ⟨rfl, hF, hs⟩
  | drain => exact hx.elim
  | turn h =>
    cases x with
    | poll | advance | polled | trigger | answer | cancelDone | begun | leave => exact hx.elim
    | _ => cases h
  | works h | calls h =>
    cases x with
    | perform | schedule | emit | forwarded | returned => exact hx.elim
    | _ => exact h.elim
  | cancels h hF hs =>
    cases x with
    | cascade j c =>
      cases c with
      | complete => exact hx.elim
      | abort => exact h.elim
    | abort | abortDone | conclude => exact h.elim
    | _ => exact hx.elim

theorem of_cancelEach {j : MiddlewareId} {order : List TaskId} {cascades : List Cascade}
    (h : Stack i d (.cancelEach j order cascades :: F)) :
    (∀ c ∈ cascades, c.IsComplete) ∧ F ≠ [] ∧ Stack i d F := by
  cases h with
  | cancels h hF hs => exact ⟨h, hF, hs⟩
  | works h | calls h | turn h | ends h => cases h

theorem of_cancelOne {turn : Turn} {wasCurrent : Bool} {order : List TaskId}
    {cascades : List Cascade} (h : Stack i d (.cancelOne turn wasCurrent order cascades :: F)) :
    (wasCurrent = decide (d = some turn.task) ∧ ∀ c ∈ cascades, c.IsComplete) ∧
      F ≠ [] ∧ Stack i d F := by
  cases h with
  | cancels h hF hs => exact ⟨h, hF, hs⟩
  | works h | calls h | turn h | ends h => cases h

/-- A task never fails within its own step. -/
theorem not_abortHalts {turn : Turn} {f : Fault} : ¬ Stack i d (.abortDone turn f true :: F) := by
  intro h
  cases h with
  | works h | calls h | turn h | cancels h | ends h => cases h

/-- There is at most one step under way, and it is known whose. -/
theorem turn_unique (h : Stack i d F) (hx : x ∈ F) {t : TaskId} (ht : x.turn? = some t) :
    d = some t := by
  induction h with
  | rest => cases hx
  | drain =>
    rw [List.mem_singleton.1 hx] at ht
    cases ht
  | works h | calls h =>
    simp only [List.mem_cons, List.not_mem_nil, or_false] at hx
    cases x with
    | poll | advance | polled | trigger | answer | cancelDone | begun | leave =>
      first
        | (rcases hx with rfl | hx
           · exact h.elim
           · cases hx)
        | (subst hx
           exact h.elim)
    | _ => cases ht
  | turn h =>
    simp only [List.mem_cons, List.not_mem_nil, or_false] at hx
    rcases hx with rfl | rfl
    · rw [h] at ht
      exact ht
    · cases ht
  | cancels h hF hs ih | ends h hF hs ih =>
    rcases List.mem_cons.1 hx with rfl | hx
    · cases x with
      | poll | advance | polled | trigger | answer | cancelDone | begun | leave => exact h.elim
      | _ => cases ht
    · exact ih hx

/-- Several frames that cancel. -/
theorem append (hs : Stack i d F) (hF : F ≠ []) (hG : ∀ x ∈ G, x.Cancels d) :
    G ++ F ≠ [] ∧ Stack i d (G ++ F) := by
  induction G with
  | nil => exact ⟨hF, hs⟩
  | cons x G ih =>
    obtain ⟨hne, hs'⟩ := ih fun y hy => hG y (List.mem_cons_of_mem _ hy)
    exact ⟨by simp, .cancels (hG x List.mem_cons_self) hne hs'⟩

end Stack

/-! ## What a frame leaves behind -/

/-- The driver is at work just as before, and so is the step of a task. -/
structure Core.Paced (k k' : Core) : Prop where
  driving : k'.driving = k.driving
  current : k'.current = k.current

theorem Core.paced_bury (k : Core) (t : TaskId) : k.Paced (k.bury t) := by
  rw [k.bury_eq]
  exact ⟨rfl, rfl⟩

theorem Core.paced_create (k : Core) (parent : Option TaskId) (detached : Bool) :
    k.Paced (k.create parent detached) := by
  rw [k.create_eq]
  exact ⟨rfl, rfl⟩

theorem Core.paced_cancelAll (k : Core) (order : List TaskId) : k.Paced (k.cancelAll order) := by
  rw [k.cancelAll_eq]
  exact ⟨rfl, rfl⟩

theorem Buries.paced {past : List Event} {k k' : Core} {t : TaskId} {outcome : Outcome}
    {c : Option Cascade} {es : List Event} (h : Buries past k t outcome k' c es) :
    k.Paced k' := by
  cases h with
  | absent => exact ⟨rfl, rfl⟩
  | gone h =>
    have h := k.paced_bury t
    exact ⟨h.driving, h.current⟩

/-- A parent fails only if its child failed. -/
theorem Core.isComplete_cascade {k : Core} {t : TaskId} {outcome : Outcome} {c : Cascade}
    (h : k.cascade t outcome = some c) (ho : ∀ f, outcome ≠ .aborted f) : c.IsComplete := by
  unfold Core.cascade at h
  split at h
  · cases h
  · split at h
    · split at h
      · cases h
      · split at h
        · cases h
        · split at h
          · exact absurd rfl (ho _)
          · split at h
            · cases h
              trivial
            · cases h
    · cases h

theorem Buries.isComplete {past : List Event} {k k' : Core} {t : TaskId} {outcome : Outcome}
    {c : Option Cascade} {es : List Event} (h : Buries past k t outcome k' c es)
    (ho : ∀ f, outcome ≠ .aborted f) : ∀ x ∈ c.toList, x.IsComplete := by
  intro x hx
  cases h with
  | absent => cases hx
  | gone h => exact Core.isComplete_cascade (Option.mem_toList.1 hx) ho

theorem Instr.cancels_of_isComplete {i : MiddlewareId} {d : Option TaskId} {c : Cascade}
    (h : c.IsComplete) : (Instr.cascade i c).Cancels d := by
  cases c with
  | complete => trivial
  | abort => exact h.elim

/-- Cascades after tasks ended without a failure. -/
theorem Stack.cascades {i : MiddlewareId} {d : Option TaskId} {F : List Instr}
    (hs : Stack i d F) (hF : F ≠ []) {cs : List Cascade} (hcs : ∀ c ∈ cs, c.IsComplete) :
    cs.map (.cascade i) ++ F ≠ [] ∧ Stack i d (cs.map (.cascade i) ++ F) := by
  refine hs.append hF fun x hx => ?_
  obtain ⟨c, hc, rfl⟩ := List.mem_map.1 hx
  exact Instr.cancels_of_isComplete (hcs c hc)

/-- A cascade after a task ended while no step is under way. -/
theorem Stack.cascade {i : MiddlewareId} {F : List Instr} (hs : Stack i none F) (hF : F ≠ [])
    (c : Option Cascade) :
    c.toList.map (.cascade i) ++ F ≠ [] ∧ Stack i none (c.toList.map (.cascade i) ++ F) := by
  cases c with
  | none => exact ⟨hF, hs⟩
  | some c =>
    refine ⟨by simp, ?_⟩
    cases c with
    | complete t => exact .cancels trivial hF hs
    | abort t f => exact .ends trivial hF hs

/-- The step of a task begins, or is skipped. -/
theorem Begins.stack {i : MiddlewareId} {k k' : Core} {t : TaskId} {expected : Option EffectId}
    {signal : Option Signal} {G : List Instr} (h : Begins i k t expected signal k' G)
    (hc : k.current = none) :
    k'.driving = k.driving ∧ G ++ [.drain i] ≠ [] ∧ Stack i k'.current (G ++ [.drain i]) := by
  cases h with
  | skip => exact ⟨rfl, by simp, hc ▸ .drain⟩
  | poll => exact ⟨rfl, by simp, .turn rfl⟩
  | leave => exact ⟨rfl, by simp, .turn rfl⟩

theorem Instr.IsScript.turn? {turn : Turn} {g : Instr} (h : g.IsScript turn) :
    g.turn? = some turn.task := by
  cases g with
  | advance | polled => cases h; rfl
  | _ => exact h.elim

/--
Frames stay stacked when the first one is carried out; only the driver that comes to rest
leaves nothing behind.
-/
theorem Does.stack {i : MiddlewareId} {past : List Event} {x : Instr} {k k' : Core}
    {G : List Instr} {D : List TaskId} {es : List Event} (h : Does i past x k k' G D es)
    {F : List Instr} (hs : Stack i k.current (x :: F)) :
    (x = .drain i ∧ k.agenda.next? = none ∧
        k' = { k with agenda := k.agenda.flush, driving := false } ∧ G = []) ∨
      (k'.driving = k.driving ∧ G ++ F ≠ [] ∧ Stack i k'.current (G ++ F)) := by
  have hwork : ∀ {k' : Core}, x.Works → k.Paced k' → G = [] →
      k'.driving = k.driving ∧ G ++ F ≠ [] ∧ Stack i k'.current (G ++ F) := by
    intro k' hx hk hG
    obtain ⟨hd, rfl⟩ := hs.of_works hx
    rw [hk.current, hd, hG]
    exact ⟨hk.driving, by simp, .drain⟩
  have hturn : ∀ {k' : Core} {t : TaskId} {g : Instr}, x.turn? = some t → k.Paced k' →
      g.turn? = some t →
      k'.driving = k.driving ∧ [g] ++ F ≠ [] ∧ Stack i k'.current ([g] ++ F) := by
    intro k' t g hx hk hg
    obtain ⟨hd, rfl⟩ := hs.of_turn hx
    rw [hk.current, hd]
    exact ⟨hk.driving, by simp, .turn hg⟩
  have hall : ∀ {k₁ : Core} {id slot : Nat} {start : Start},
      ((∃ member, start = .pending member ∧ k₁ = { k with waits := k.waits.modify id fun w =>
          { w with kind := w.kind.setMember slot member } }) ∨
        ∃ v, start = .immediate (.value v) ∧
          k₁ = { k with waits := (Waits.merge k.waits id slot (.value v)).2 }) → k.Paced k₁ := by
    intro k₁ id slot start hk
    rcases hk with ⟨_, _, rfl⟩ | ⟨_, _, rfl⟩ <;> exact ⟨rfl, rfl⟩
  cases h with
  | rest h => exact Or.inl ⟨rfl, h, rfl, rfl⟩
  | next h =>
    obtain ⟨hd, rfl⟩ := hs.of_drain
    exact Or.inr ⟨rfl, by simp, hd ▸ .works trivial⟩
  | start h | resume h =>
    obtain ⟨hd, rfl⟩ := hs.of_works trivial
    exact Or.inr (h.stack hd)
  | wake hn h hb =>
    obtain ⟨hd, rfl⟩ := hs.of_works trivial
    exact Or.inr (hb.stack hd)
  | settle => exact Or.inr (hwork trivial ⟨rfl, rfl⟩ rfl)
  | schedule => exact Or.inr (hwork trivial ⟨rfl, rfl⟩ rfl)
  | errand hG =>
    obtain ⟨hd, rfl⟩ := hs.of_works trivial
    refine Or.inr ⟨rfl, by simp, ?_⟩
    show Stack i k.current _
    rw [hd]
    rcases hG with rfl | ⟨g, rfl, hg⟩
    · exact .drain
    · refine .works ?_
      cases g with
      | perform | returned => trivial
      | _ => exact hg
  | @emit _ a sender =>
    cases sender with
    | caller site =>
      obtain ⟨hd, rfl⟩ := hs.of_calls trivial
      exact Or.inr ⟨rfl, by simp, hd ▸ .calls trivial⟩
    | effect | nobody =>
      obtain ⟨hd, rfl⟩ := hs.of_works trivial
      exact Or.inr ⟨rfl, by simp, hd ▸ .works trivial⟩
  | @forwarded _ a sender _ _ hc =>
    cases sender with
    | caller site => exact absurd rfl (hc site)
    | effect | nobody => exact Or.inr (hwork trivial ⟨rfl, rfl⟩ rfl)
  | forwardedCall =>
    obtain ⟨hd, rfl⟩ := hs.of_calls trivial
    exact Or.inr ⟨rfl, by simp, hd ▸ .drain⟩
  | poll hg | advance hg => exact Or.inr (hturn rfl ⟨rfl, rfl⟩ hg.turn?)
  | polledHalted | polledComplete | polledYielded | triggerHalted | triggerSettles
  | triggerSuspends | triggerCalls | triggerOpens | answerSettles | answerSuspends | cancelHalted
  | cancelSettles | begunHalt | begunWithdraws | begunSuspends | begunHalted | begunEnds
  | begunPolls | begunYields | raceHalt | raceNext | raceFull | raceLost | raceDecided | allHalt
  | allFailed | allLost => exact Or.inr (hturn rfl ⟨rfl, rfl⟩ rfl)
  | triggerForks =>
    have hk := k.number.paced_create (some ‹TaskId›) ‹Bool›
    exact Or.inr (hturn rfl ⟨hk.driving, hk.current⟩ rfl)
  | triggerCancels =>
    obtain ⟨hd, rfl⟩ := hs.of_turn rfl
    exact Or.inr ⟨rfl, by simp, .cancels trivial (by simp) (hd ▸ .turn rfl)⟩
  | allNext hk | allFull hk =>
    have hk := hall hk
    exact Or.inr (hturn rfl ⟨hk.driving, hk.current⟩ rfl)
  | allComplete hk =>
    have hk := hall hk
    exact Or.inr (hturn rfl ⟨hk.driving, hk.current⟩ rfl)
  | leaveSuspended | leaveYielded =>
    obtain ⟨hd, rfl⟩ := hs.of_turn rfl
    exact Or.inr ⟨rfl, by simp, .drain⟩
  | leaveFinished | leaveEnded =>
    obtain ⟨hd, rfl⟩ := hs.of_turn rfl
    exact Or.inr ⟨rfl, by simp, .works trivial⟩
  | leaveFailed | leaveHalted =>
    obtain ⟨hd, rfl⟩ := hs.of_turn rfl
    exact Or.inr ⟨rfl, by simp, .ends trivial (by simp) .drain⟩
  | returnedLate | returnedHeld => exact Or.inr (hwork trivial ⟨rfl, rfl⟩ rfl)
  | returned =>
    obtain ⟨hd, rfl⟩ := hs.of_works trivial
    exact Or.inr ⟨rfl, by simp, .cancels trivial (by simp) (hd ▸ .drain)⟩
  | abortLate =>
    obtain ⟨hd, hF, hs'⟩ := hs.of_ends trivial
    exact Or.inr ⟨rfl, hF, hd ▸ hs'⟩
  | cascadeAbort =>
    obtain ⟨hd, hF, hs'⟩ := hs.of_ends trivial
    exact Or.inr ⟨rfl, by simp, hd ▸ .ends trivial hF hs'⟩
  | @abort _ t f p hp h =>
    obtain ⟨hd, hF, hs'⟩ := hs.of_ends trivial
    have hdone : Stack i none (.abortDone ⟨i, t⟩ f false :: F) := .ends trivial hF hs'
    refine Or.inr ⟨rfl, by simp, ?_⟩
    show Stack i k.current _
    rw [hd, List.append_assoc]
    refine (hdone.append (by simp) fun x hx => ?_).2
    obtain ⟨u, -, rfl⟩ := List.mem_map.1 hx
    trivial
  | abortHalts => exact hs.not_abortHalts.elim
  | abortDone h =>
    obtain ⟨hd, hF, hs'⟩ := hs.of_ends trivial
    obtain ⟨hne, hs''⟩ := hs'.cascade hF ‹_›
    rw [h.paced.current, hd]
    exact Or.inr ⟨h.paced.driving, hne, hs''⟩
  | conclude h =>
    obtain ⟨hd, hF, hs'⟩ := hs.of_ends trivial
    obtain ⟨hne, hs''⟩ := hs'.cascade hF ‹_›
    rw [h.paced.current]
    exact Or.inr ⟨h.paced.driving, hne, hd ▸ hs''⟩
  | cascadeLate | cancelLate =>
    obtain ⟨hF, hs'⟩ := hs.of_cancels trivial
    exact Or.inr ⟨rfl, hF, hs'⟩
  | cascadeComplete hp h hv hb =>
    obtain ⟨hF, hs'⟩ := hs.of_cancels trivial
    have hk := hb.paced
    obtain ⟨hne, hs''⟩ := hs'.cascades hF (hb.isComplete fun f hf => by cases hf)
    rw [hk.current]
    exact Or.inr ⟨hk.driving, hne, hs''⟩
  | cancel h ho =>
    obtain ⟨hF, hs'⟩ := hs.of_cancels trivial
    have hk := k.paced_cancelAll ‹_›
    rw [hk.current]
    exact Or.inr ⟨hk.driving, by simp, .cancels (fun c hc => by cases hc) hF hs'⟩
  | cancelledAll =>
    obtain ⟨hcs, hF, hs'⟩ := hs.of_cancelEach
    exact Or.inr ⟨rfl, hs'.cascades hF hcs⟩
  | cancelledLate =>
    obtain ⟨hcs, hF, hs'⟩ := hs.of_cancelEach
    exact Or.inr ⟨rfl, by simp, .cancels hcs hF hs'⟩
  | cancelEach =>
    obtain ⟨hcs, hF, hs'⟩ := hs.of_cancelEach
    exact Or.inr ⟨rfl, by simp, .cancels ⟨rfl, hcs⟩ hF hs'⟩
  | cancelHalts =>
    obtain ⟨⟨-, hcs⟩, hF, hs'⟩ := hs.of_cancelOne
    exact Or.inr ⟨rfl, by simp, .cancels hcs hF hs'⟩
  | cancelOne hb =>
    obtain ⟨⟨-, hcs⟩, hF, hs'⟩ := hs.of_cancelOne
    rw [hb.paced.current]
    refine Or.inr ⟨hb.paced.driving, by simp, .cancels ?_ hF hs'⟩
    intro c hc
    rcases List.mem_append.1 hc with hc | hc
    · exact hcs c hc
    · exact hb.isComplete (fun f hf => by cases hf) c hc

/-! ## The frames of a view -/

/-- The frames of a view are stacked, and the driver of a middleware at rest has no work. -/
structure Framed (i : MiddlewareId) (v : View) : Prop where
  stack : Stack i v.core.current v.frames
  driving : v.core.driving = true ↔ v.frames ≠ []
  idle : v.frames = [] → v.core.agenda = {}
  dead : v.alive = false → v.frames = [] ∧ v.core = Engine.core {}

theorem Framed.start (i : MiddlewareId) : Framed i ⟨true, Engine.core {}, [], [], []⟩ where
  stack := .rest
  driving := by simp [Engine.core]
  idle _ := rfl
  dead h := by cases h

/-- An agenda without a next job is empty. -/
theorem Agenda.flush_of_next?_eq_none {a : Agenda} (h : a.next? = none) : a.flush = {} := by
  unfold Agenda.next? at h
  simp only at h
  split at h
  · cases h
  · rename_i hs
    split at h
    · cases h
    · rename_i he
      have hf : a.flush.fresh = [] := rfl
      cases hflush : a.flush with
      | mk stack fresh errands =>
        simp only [hflush] at hs he hf
        rw [hs, he, hf]

theorem Drives.stack {i : MiddlewareId} {k k' : Core} {work F G : List Instr}
    (h : Drives i k work k' G) (hs : Stack i k.current F) (hd : k.driving = true ↔ F ≠ [])
    (hw : ∀ x ∈ work, x.Cancels k.current) :
    G ++ F ≠ [] ∧ k'.driving = true ∧ Stack i k'.current (G ++ F) := by
  cases h with
  | within h =>
    obtain ⟨hne, hs'⟩ := hs.append (hd.1 h) hw
    exact ⟨hne, h, hs'⟩
  | starts h =>
    have hF : F = [] := by
      by_contra hF
      rw [hd.2 hF] at h
      cases h
    subst hF
    have hc : k.current = none := by
      generalize k.current = d at hs
      cases hs
      rfl
    rw [hc] at hw
    have hdrain : Stack i none [.drain i] := .drain
    have := hdrain.append (by simp) hw
    rw [List.append_nil]
    exact ⟨this.1, rfl, hc ▸ this.2⟩

theorem Intervenes.stack {i : MiddlewareId} {past : List Event} {k k' : Core}
    {G F : List Instr} {es : List Event} (h : Intervenes i past k k' G es)
    (hs : Stack i k.current F) (hd : k.driving = true ↔ F ≠ []) :
    (G = [] ∧ k' = k) ∨ (G ++ F ≠ [] ∧ k'.driving = true ∧ Stack i k'.current (G ++ F)) := by
  have hnil : ∀ x ∈ ([] : List Instr), x.Cancels k.current := fun x hx => by cases hx
  cases h with
  | quietly => exact Or.inl ⟨rfl, rfl⟩
  | spawns h =>
    have hk := k.paced_create none false
    rw [← hk.current] at hs
    rw [← hk.driving] at hd
    exact Or.inr (h.stack hs hd fun x hx => by cases hx)
  | settles _ h => exact Or.inr (h.stack hs hd hnil)
  | cancels h =>
    refine Or.inr (h.stack hs hd fun x hx => ?_)
    rw [List.mem_singleton.1 hx]
    trivial
  | queues h => exact Or.inr ⟨hd.1 h, h, hs⟩
  | sends h =>
    have hF : F = [] := by
      by_contra hF
      rw [hd.2 hF] at h
      cases h
    subst hF
    generalize hc : k.current = d at hs
    cases hs
    have hcall : Stack i none [.emit i ‹_› (.caller ‹_›)] := .calls trivial
    exact Or.inr ⟨by simp, rfl, hc ▸ hcall⟩

/-- Every move leaves the frames stacked. -/
theorem Framed.move {i : MiddlewareId} {v v' : View} (hv : Framed i v) (h : Moves i v v') :
    Framed i v' := by
  cases h with
  | @does alive k F D past x k' G D' es h hu =>
    have halive : alive = true := by
      by_contra hn
      have := (hv.dead (by simpa using hn)).1
      cases this
    subst halive
    rcases h.stack hv.stack with ⟨rfl, hnone, rfl, rfl⟩ | ⟨hd, hne, hs⟩
    · obtain ⟨hc, rfl⟩ := hv.stack.of_drain
      refine ⟨?_, by simp, fun _ => Agenda.flush_of_next?_eq_none hnone, fun h => by cases h⟩
      show Stack i k.current _
      have hc : k.current = none := hc
      rw [hc]
      exact .rest
    · have hk : k.driving = true := hv.driving.2 (by simp)
      refine ⟨hs, ?_, fun h => absurd h hne, fun h => by cases h⟩
      show k'.driving = true ↔ _
      rw [hd, hk]
      simpa using hne
  | intervenes h hu =>
    rcases h.stack hv.stack hv.driving with ⟨rfl, rfl⟩ | ⟨hne, hd, hs⟩
    · exact ⟨hv.stack, hv.driving, hv.idle, fun h => by cases h⟩
    · refine ⟨hs, ?_, fun h => absurd h hne, fun h => by cases h⟩
      exact ⟨fun _ => hne, fun _ => hd⟩
  | still => exact hv
  | drops hu => exact ⟨hv.stack, hv.driving, hv.idle, hv.dead⟩
  | dies hD => exact ⟨.rest, by simp [Engine.core], fun _ => rfl, fun _ => ⟨rfl, rfl⟩⟩

end SagaMachine
