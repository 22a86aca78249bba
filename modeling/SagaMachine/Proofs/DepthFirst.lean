import SagaMachine.Proofs.Pairing
import SagaMachine.Proofs.Puts

/-!
# Depth first

What a body causes comes before the body: a task that it forks is started, and what it puts is
delivered, with everything that follows from this, before the body is polled again. For a fork
this takes that the effect of the body comes back at once. A fork among the members of an effect
that has to wait may be overtaken by the settlement of this effect.

Main statement: `Scenario.Visits.depth_first`.
-/

namespace SagaMachine

/-! ## Forks -/

section

variable {i : MiddlewareId} {t : TaskId} {w : World} {k : Core} {b : Body}

/-- A task that forks another one stays live. -/
theorem Core.Live.create (hl : k.Live t) (hn : t < k.nextTask) (detached : Bool) :
    (k.create (some t) detached).Live t := by
  obtain ⟨p, hp, hs⟩ := hl
  have hne : t ≠ k.nextTask := Nat.ne_of_lt hn
  refine ⟨k.welcome (some t) detached t p, ?_, ?_⟩
  · rw [k.posture_create detached fun h => hne (Option.some.inj h), if_neg hne, hp]
    rfl
  · rw [k.welcome_eq]
    exact hs

/-- A fork comes back at once, and the start of the new task is scheduled. -/
theorem World.execTrigger_fork (hi : w.Has i) (hl : (w.core i).Live t) (saga : Saga)
    (detached : Bool) : ∃ v w₁, w.execTrigger ⟨i, t⟩ b [] (.fork saga detached) =
        ⟨[.begun ⟨i, t⟩ b [] (.immediate (.value v))], w₁⟩ ∧
      w₁.core i = ((w.core i).number.create (some t) detached).schedule
        [.start (w.core i).nextTask] := by
  have hhalted : w.isHalted i t = false := by
    simpa using fun hh => World.isHalted_iff.1 hh hl
  set w₀ := (w.setEngine i fun e => { e with nextEffect := (w.core i).nextEffect + 1 }).record i
    (.triggered t (w.core i).nextEffect (Nest.link []).parent? (.fork saga detached)) with hw₀
  have h : Advances i w w₀ (w.core i).number _ :=
    ((Advances.start hi).setEngine (fun k => { k with nextEffect := (w.core i).nextEffect + 1 })
      fun _ => rfl).record _
  have hnext : (w₀.engine i).nextTask = (w.core i).nextTask := congrArg Core.nextTask h.core
  have hexec : w.execTrigger ⟨i, t⟩ b [] (.fork saga detached) =
      w₀.startFork ⟨i, t⟩ b [] (w.core i).nextEffect saga detached := by
    simp only [World.execTrigger, hhalted]
    rfl
  have h₁ := ((h.createTask saga (some t) detached).schedule (.start (w.core i).nextTask)).core
  rw [hexec]
  refine ⟨_, _, rfl, ?_⟩
  rw [World.nextTaskRef, hnext]
  exact h₁

end

namespace Scenario.Visits

variable {s : Scenario} {c c' : Config} {i : MiddlewareId} {t : TaskId} {x : Instr}
  {pre rest : List Instr} {log : List Performed}

/-- No step of a task is due while its body is at work. -/
theorem not_due_of_poll (h : s.Visits c) {b : Body} {a : Option Answer}
    (hpoll : c.todo = .poll ⟨i, t⟩ b a :: rest) {r : Reaction} (hr : r.Steps t) :
    r ∉ c.world.pending i := by
  intro hm
  obtain ⟨todo, w⟩ := c
  subst hpoll
  have ha := h.alive_of_owner (i := i) rfl
  obtain ⟨d, hd⟩ := h.conversation ha.has t
  have halive : (Config.view ⟨.poll ⟨i, t⟩ b a :: rest, w⟩ i).alive = true := by
    simpa [Config.view, World.Alive] using ha
  have hmem : .poll ⟨i, t⟩ b a ∈ framesOf i (.poll ⟨i, t⟩ b a :: rest) :=
    List.mem_filter.2 ⟨List.mem_cons_self, by simp [Instr.owner?]⟩
  have hdue : dueSteps (w.core i) (framesOf i (.poll ⟨i, t⟩ b a :: rest)) t = [] :=
    ((hd.fits halive).turn _ hmem rfl).2.2.1
  have hin : r ∈ dueSteps (w.core i) (framesOf i (.poll ⟨i, t⟩ b a :: rest)) t := by
    refine List.mem_filter.2 ⟨?_, by simpa using hr⟩
    rw [List.append_assoc]
    exact List.mem_append_right _ hm
  rw [hdue] at hin
  cases hin

/--
A body whose effect came back at once, while other reactions are scheduled, is polled again only
when all these reactions were executed, with everything that follows from them.
-/
theorem yields_first (h : s.Visits c) (hi : c.world.Has i) {b b' : Body} {signal : Signal}
    {a : Option Answer} {rest' : List Instr}
    (hleave : c.todo = .leave ⟨i, t⟩ b (.yielded signal) :: pre ++ .drain i :: rest)
    (hlog : c.Logs i rest log c') (hpoll : c'.todo = .poll ⟨i, t⟩ b' a :: rest') :
    ∃ log₁ log₂, log = log₁ ++ log₂ ∧ log₂ ≠ [] ∧
      Unfolds ((c.world.engine i).agenda.fresh.map .reaction) log₁ [] := by
  obtain ⟨todo, w⟩ := c
  subst hleave
  -- the resumption is scheduled after them
  set w₁ := (((w.setEngine i fun e => { e with current := none }).park i t b none).schedule i
    (.resume t signal)) with hw₁
  have hstep : Config.step ⟨.leave ⟨i, t⟩ b (.yielded signal) :: pre ++ .drain i :: rest, w⟩ =
      some ⟨pre ++ .drain i :: rest, w₁⟩ := rfl
  have hcore : w₁.core i =
      ((w.core i).park t none).schedule [.resume t signal] :=
    ((((World.Advances.start hi).setEngine (fun k => { k with current := none }) fun _ => rfl).park t b
      none).schedule _).core
  have hv₁ := h.step hstep
  have hi₁ : w₁.Has i := (h.knows.has_iff hstep i).2 hi
  have hlog₁ := hlog.forward (by simp) hstep fun he => by
    rw [he] at hpoll
    cases hpoll
  have hv' := hlog₁.visits hv₁
  have hresume : ∀ r, r = .resume t signal → r ∉ c'.world.pending i := fun r hr => by
    subst hr
    exact hv'.not_due_of_poll hpoll rfl
  -- they are still pending unless jobs were taken
  have hfresh : ∀ {d : Config}, Config.Logs i rest ⟨pre ++ .drain i :: rest, w₁⟩ [] d →
      ∃ rs, (d.world.engine i).agenda.fresh =
        (w.engine i).agenda.fresh ++ .resume t signal :: rs := by
    intro d hd
    obtain ⟨rs, hrs⟩ := (hd.before_accrues hv₁ hi₁ rfl).fresh
    rw [hcore] at hrs
    refine ⟨rs, ?_⟩
    calc (d.world.engine i).agenda.fresh
        = (w.engine i).agenda.fresh ++ [Reaction.resume t signal] ++ rs := hrs
      _ = (w.engine i).agenda.fresh ++ Reaction.resume t signal :: rs := List.append_assoc ..
  have hne : log ≠ [] := by
    rintro rfl
    obtain ⟨rs, hrs⟩ := hfresh hlog₁
    refine hresume _ rfl (List.mem_append_left _ ?_)
    rw [hrs]
    exact List.mem_append_right _ List.mem_cons_self
  obtain ⟨d, hd, hloop, hlog₂⟩ := hlog₁.from_loop hne
  obtain ⟨rs, hrs⟩ := hfresh hd
  obtain ⟨taken, queued, -, hun⟩ := (hd.visits hv₁).unfolds (hd.has hv₁ hi₁) hloop hlog₂
  rw [World.pending, hrs, List.append_assoc, List.map_append, List.append_assoc] at hun
  have hmem : ∀ {left : List Job}, (c'.world.pending i).map Job.reaction = left →
      .reaction (.resume t signal) ∉ left := by
    rintro _ rfl hm
    obtain ⟨r, hr, he⟩ := List.mem_map.1 hm
    cases he
    exact hresume _ rfl hr
  rcases hun.split with ⟨left, hleft, -⟩ | ⟨log₁, log₂, rfl, h₁, h₂⟩
  · exact absurd (by simp) (hmem hleft)
  · refine ⟨log₁, log₂, rfl, ?_, h₁⟩
    rintro rfl
    exact absurd (by simp) (hmem h₂.left_of_nil)

/-- A forked task is started, and everything that follows is executed, before its parent goes on. -/
theorem fork_first (h : s.Visits c) (hi : c.world.Has i) {b b' : Body} {saga : Saga}
    {detached : Bool} {a : Option Answer} {rest' : List Instr}
    (hfork : c.todo = .trigger ⟨i, t⟩ b [] (.fork saga detached) :: pre ++ .drain i :: rest)
    (hl : (c.world.core i).Live t) (hlog : c.Logs i rest log c')
    (hpoll : c'.todo = .poll ⟨i, t⟩ b' a :: rest') :
    ∃ log₀ log₁ log₂, log = log₀ ++ log₁ ++ log₂ ∧ log₂ ≠ [] ∧
      Unfolds [.reaction (.start (c.world.engine i).nextTask)] log₁ [] := by
  obtain ⟨todo, w⟩ := c
  subst hfork
  obtain ⟨v, w₁, hexec, hcore⟩ := World.execTrigger_fork (b := b) hi hl saga detached
  have hfresh : (w₁.engine i).agenda.fresh =
      (w.engine i).agenda.fresh ++ [.start (w.engine i).nextTask] := by
    have := congrArg (fun k => k.agenda.fresh) hcore
    rw [Core.schedule, Core.agenda_create] at this
    exact this
  -- the fork comes back at once
  have hstep₁ : Config.step
      ⟨.trigger ⟨i, t⟩ b [] (.fork saga detached) :: pre ++ .drain i :: rest, w⟩ =
        some ⟨.begun ⟨i, t⟩ b [] (.immediate (.value v)) :: pre ++ .drain i :: rest, w₁⟩ :=
    congrArg (fun c => some (Config.followedBy c (pre ++ .drain i :: rest))) hexec
  -- and the body stands aside for the new task
  have hlive : (w₁.core i).Live t := by
    obtain ⟨p, hp, hs⟩ := hl
    have hn : t < (w.core i).number.nextTask := ((h.sound hi).orderly.tasks hp).number
    rw [hcore]
    exact Core.Live.create (k := (w.core i).number) ⟨p, hp, hs⟩ hn detached
  have hhalted : w₁.isHalted i t = false := by
    simpa using fun hh => World.isHalted_iff.1 hh hlive
  have hstep₂ : Config.step
      ⟨.begun ⟨i, t⟩ b [] (.immediate (.value v)) :: pre ++ .drain i :: rest, w₁⟩ =
        some ⟨.leave ⟨i, t⟩ b (.yielded (.value v)) :: pre ++ .drain i :: rest, w₁⟩ := by
    have hexec₂ : w₁.resumeBody ⟨i, t⟩ b (.immediate (.value v)) =
        ⟨[.leave ⟨i, t⟩ b (.yielded (.value v))], w₁⟩ := by
      simp [World.resumeBody, hhalted, hfresh]
    exact congrArg (fun c => some (Config.followedBy c (pre ++ .drain i :: rest))) hexec₂
  have hne : ∀ {d : Config} {y : Instr} {ys : List Instr}, d.todo = y :: ys →
      (∀ b a, y ≠ .poll ⟨i, t⟩ b a) → c' ≠ d := by
    rintro d y ys hd hy rfl
    obtain ⟨rfl, -⟩ := List.cons.inj (hpoll.symm.trans hd)
    exact hy _ _ rfl
  have hv₁ := h.step hstep₁
  have hi₁ : w₁.Has i := (h.knows.has_iff hstep₁ i).2 hi
  have hlog₁ := hlog.forward (by simp) hstep₁ (hne rfl (by simp))
  have hlog₂ := hlog₁.forward (by simp) hstep₂ (hne rfl (by simp))
  obtain ⟨log₁, log₂, rfl, hlast, hun⟩ := (hv₁.step hstep₂).yields_first hi₁ rfl hlog₂ hpoll
  rw [hfresh, List.map_append] at hun
  rcases hun.split with ⟨left, hleft, -⟩ | ⟨log₃, log₄, rfl, -, hstart⟩
  · simp at hleft
  · exact ⟨log₃, log₄, log₂, rfl, hlast, hstart⟩

/--
The driver is a recursion. It executes what is pending in order, each with everything that follows
from it, then the errands, the oldest first, and every step until it comes to rest is one of this
recursion. So a body is polled again only after what it scheduled before its effect came back,
after the tasks that it forked, and after those who were woken by what it put.
-/
theorem depth_first (h : s.Visits c) (hi : c.world.Has i) (hpre : c.todo = pre ++ .drain i :: rest)
    (hlog : c.Logs i rest log c') :
    (pre = [] → ∃ taken queued : List Errand,
      (c.world.engine i).agenda.errands ++ queued =
        taken ++ (c'.world.engine i).agenda.errands ∧
      Unfolds ((c.world.pending i).map .reaction ++ taken.map .errand) log
        ((c'.world.pending i).map .reaction)) ∧
    (∀ {d}, c'.step = some d → (∃ log', c.Logs i rest log' d) ∨
      c'.todo = .drain i :: rest ∧ d.todo = rest ∧ (c'.world.engine i).agenda.next? = none) ∧
    (∀ {b b' signal a pre' rest'}, pre = .leave ⟨i, t⟩ b (.yielded signal) :: pre' →
      c'.todo = .poll ⟨i, t⟩ b' a :: rest' →
      ∃ log₁ log₂, log = log₁ ++ log₂ ∧ log₂ ≠ [] ∧
        Unfolds ((c.world.engine i).agenda.fresh.map .reaction) log₁ []) ∧
    (∀ {b b' saga detached a pre' rest'},
      pre = .trigger ⟨i, t⟩ b [] (.fork saga detached) :: pre' → (c.world.core i).Live t →
      c'.todo = .poll ⟨i, t⟩ b' a :: rest' →
      ∃ log₀ log₁ log₂, log = log₀ ++ log₁ ++ log₂ ∧ log₂ ≠ [] ∧
        Unfolds [.reaction (.start (c.world.engine i).nextTask)] log₁ []) ∧
    (∀ {b b' target a pre' rest'}, pre = .trigger ⟨i, t⟩ b [] (.put target) :: pre' →
      (c.world.core i).Live t → c'.todo = .poll ⟨i, t⟩ b' a :: rest' →
      ∃ log₀ log₁ log₂ q woken signal, q.reply? = some (c.world.engine i).nextEffect ∧
        log = log₀ ++ ⟨.errand q, woken ++ [.settle (c.world.engine i).nextEffect signal]⟩ ::
          (log₁ ++ log₂) ∧
        Unfolds (woken.map .reaction) log₁ [] ∧ log₂ ≠ []) := by
  refine ⟨?_, fun hd => hlog.goes_on hd, ?_, ?_, ?_⟩
  · rintro rfl
    exact h.unfolds hi hpre hlog
  · rintro b b' signal a pre' rest' rfl hpoll
    exact h.yields_first hi hpre hlog hpoll
  · rintro b b' saga detached a pre' rest' rfl hl hpoll
    exact h.fork_first hi hpre hl hlog hpoll
  · rintro b b' target a pre' rest' rfl hl hpoll
    exact h.put_first hi hpre hl hlog hpoll

end Scenario.Visits

/-- A body forks a task that dispatches an action. -/
def Scenario.forksDispatcher : Scenario where
  middlewares := [{}]
  scripts := [
    ("parent", [.perform (.fork { source := .named "child" }) none none, .return .unit]),
    ("child", [.perform (.dispatch { kind := "hello" }) none none, .return .unit])]

/-- A body is about to fork a task, above the loop of its driver. -/
def Config.forks? (c : Config) : Bool :=
  match c.todo with
  | [.trigger ⟨0, 1⟩ _ [] (.fork _ false), .drain 0, _] => true
  | _ => false

/-- The body of the first task is about to be polled. -/
def Config.polls? (c : Config) : Bool :=
  match c.todo with
  | .poll ⟨0, 1⟩ _ _ :: _ => true
  | _ => false

theorem Scenario.depth_first_forksDispatcher : ∃ c c' b saga b' a y rest log₀ log₁ log₂,
    forksDispatcher.Visits c ∧
    c.todo = .trigger ⟨0, 1⟩ b [] (.fork saga false) :: .drain 0 :: [y] ∧
    c'.todo = .poll ⟨0, 1⟩ b' a :: rest ∧ c.Logs 0 [y] (log₀ ++ log₁ ++ log₂) c' ∧
    Unfolds [.reaction (.start 2)] log₁ [] ∧ log₂ ≠ [] := by
  have h : ((forksDispatcher.during? (.run 0 { source := .named "parent" } none) 6).any fun c =>
      c.forks? && (c.run 13).polls? && (c.world.alive? 0).isSome &&
        decide ((c.world.engine 0).nextTask = 2) &&
        (((c.world.core 0).posture 1).any fun p => !p.status.isTerminal) &&
        (List.range 13).all fun m => decide (1 < (c.run (m + 1)).todo.length)) = true := by
    decide +kernel
  obtain ⟨c, hc, h⟩ := (Option.any_eq_true ..).1 h
  simp only [Bool.and_eq_true, decide_eq_true_eq, List.all_eq_true, List.mem_range] at h
  obtain ⟨⟨⟨⟨⟨hforks, hpolls⟩, hi⟩, hnext⟩, hlive⟩, hbelow⟩ := h
  have hv : forksDispatcher.Visits c := Visits.of_during? hc
  obtain ⟨p, hp, hterm⟩ := (Option.any_eq_true ..).1 hlive
  unfold Config.forks? at hforks
  split at hforks
  · rename_i b saga y hfork
    unfold Config.polls? at hpolls
    split at hpolls
    · rename_i b' a rest hpoll
      have hstart : c.Logs 0 [y] [] c := .start
      obtain ⟨log, hlog⟩ := hstart.run (n := 13) hbelow
      have hfork' : c.todo = [.trigger ⟨0, 1⟩ b [] (.fork saga false)] ++ .drain 0 :: [y] := hfork
      obtain ⟨-, -, -, hfirst, -⟩ := hv.depth_first (t := 1) (World.has_iff.2 hi) hfork' hlog
      obtain ⟨log₀, log₁, log₂, rfl, hne, hun⟩ :=
        hfirst rfl ⟨p, hp, by simpa using hterm⟩ hpoll
      rw [hnext] at hun
      exact ⟨c, _, b, saga, b', a, y, rest, log₀, log₁, log₂, hv, hfork, hpoll, hlog, hun, hne⟩
    · cases hpolls
  · cases hforks

end SagaMachine
