import SagaMachine.Proofs.Reentry

/-!
# The loop of the driver as a recursion

The driver keeps a stack of reactions and a list of those that the present job has scheduled. The
order in which it performs jobs is that of a recursion: a job is performed, then each reaction
that was scheduled meanwhile, in the order they were scheduled and with everything that follows
from it, and only then what was on the stack before, which nobody touches in between. An errand is
taken, the oldest first, when no reaction is left.

The recursion is `Unfolds`; `Config.Logs` is what the driver performs on the way from one
configuration to another.

Main statement: `Scenario.Visits.unfolds`.
-/

namespace SagaMachine

/-! ## The recursion -/

/-- A job that was performed, and the reactions that were scheduled meanwhile, in order. -/
structure Performed where
  job : Job
  caused : List Reaction

/--
Jobs are executed one after the other, each with everything that it causes. So far `log` was
performed, in order, and `left` is what is left to be performed, the next job first.
-/
inductive Unfolds : List Job → List Performed → List Job → Prop
  /-- None of the jobs was performed. -/
  | waits (jobs : List Job) : Unfolds jobs [] jobs
  /-- The first job was performed. The others wait until nothing is left of what it caused. -/
  | performs {job : Job} {caused : List Reaction} {jobs left left' : List Job}
      {log log' : List Performed} (own : Unfolds (caused.map .reaction) log left)
      (others : Unfolds jobs log' left') (order : left = [] ∨ log' = []) :
      Unfolds (job :: jobs) (⟨job, caused⟩ :: (log ++ log')) (left ++ left')

namespace Unfolds

variable {jobs jobs' left rest : List Job} {log log' : List Performed} {job : Job}
  {caused : List Reaction}

theorem left_of_nil (h : Unfolds jobs [] left) : left = jobs := by
  cases h with
  | waits => rfl

/-- The next job is performed. -/
theorem take (h : Unfolds jobs log (job :: rest)) : Unfolds jobs (log ++ [⟨job, []⟩]) rest := by
  generalize hl : job :: rest = left at h
  induction h generalizing rest with
  | waits jobs =>
    subst hl
    have nothing : Unfolds (List.map .reaction []) [] [] := waits []
    exact nothing.performs (waits rest) (Or.inl rfl)
  | @performs j c jobs left₁ left₂ log₁ log₂ own others order ihown ihothers =>
    cases left₁ with
    | nil =>
      simpa using performs own (ihothers hl) (Or.inl rfl)
    | cons r left₁ =>
      obtain ⟨rfl, rfl⟩ := List.cons.inj hl
      have hnil := order.resolve_left (List.cons_ne_nil _ _)
      subst hnil
      simpa using performs (ihown rfl) others (Or.inr rfl)

/-- What the job performed last has caused is next, and may become more. -/
theorem causes (h : Unfolds jobs (log ++ [⟨job, caused⟩]) left) :
    ∃ rest, left = caused.map .reaction ++ rest ∧
      ∀ more, Unfolds jobs (log ++ [⟨job, more⟩]) (more.map .reaction ++ rest) := by
  generalize hl : log ++ [⟨job, caused⟩] = whole at h
  induction h generalizing log with
  | waits jobs => simp at hl
  | @performs j c jobs left₁ left₂ log₁ log₂ own others order ihown ihothers =>
    rcases List.eq_nil_or_concat log₂ with hnil | ⟨log₃, p, hlast⟩
    · subst hnil
      rw [List.append_nil] at hl
      rcases List.eq_nil_or_concat log₁ with hnil | ⟨log₃, p, hlast⟩
      · -- the first job is the last one
        subst hnil
        obtain rfl := own.left_of_nil
        have hnil : log = [] := by
          have := congrArg List.length hl
          simpa using this
        subst hnil
        cases hl
        exact ⟨left₂, rfl, fun more => performs (waits _) others (Or.inr rfl)⟩
      · rw [List.concat_eq_append] at hlast
        subst hlast
        rw [← List.cons_append] at hl
        obtain ⟨rfl, hp⟩ := List.append_inj' hl rfl
        cases hp
        obtain ⟨rest, rfl, hmore⟩ := ihown rfl
        refine ⟨rest ++ left₂, List.append_assoc .., fun more => ?_⟩
        simpa using performs (hmore more) others (Or.inr rfl)
    · rw [List.concat_eq_append] at hlast
      subst hlast
      have hdone : left₁ = [] := order.resolve_right (by simp)
      subst hdone
      rw [← List.append_assoc, ← List.cons_append] at hl
      obtain ⟨rfl, hp⟩ := List.append_inj' hl rfl
      cases hp
      obtain ⟨rest, rfl, hmore⟩ := ihothers rfl
      refine ⟨rest, rfl, fun more => ?_⟩
      simpa using performs own (hmore more) (Or.inl rfl)

/-- More jobs come after all others. -/
theorem append (h : Unfolds jobs log left) (more : List Job) :
    Unfolds (jobs ++ more) log (left ++ more) := by
  induction h with
  | waits jobs => exact waits _
  | @performs j c jobs left₁ left₂ log₁ log₂ own others order ihown ihothers =>
    simpa using performs own ihothers order

/-- Jobs that come after others are left alone until those are done. -/
theorem split (h : Unfolds (jobs ++ jobs') log left) :
    (∃ rest, left = rest ++ jobs' ∧ Unfolds jobs log rest) ∨
      ∃ log₁ log₂, log = log₁ ++ log₂ ∧ Unfolds jobs log₁ [] ∧ Unfolds jobs' log₂ left := by
  induction jobs generalizing log left with
  | nil => exact Or.inr ⟨[], log, rfl, waits [], h⟩
  | cons job jobs ih =>
    cases h with
    | waits => exact Or.inl ⟨job :: jobs, rfl, waits _⟩
    | @performs _ caused _ left₁ left₂ log₁ log₂ own others order =>
      rcases ih others with ⟨rest, rfl, hjobs⟩ | ⟨log₃, log₄, rfl, hjobs, hjobs'⟩
      · exact Or.inl ⟨left₁ ++ rest, (List.append_assoc ..).symm, performs own hjobs order⟩
      · rcases order with rfl | hnil
        · exact Or.inr ⟨_, log₄, by rw [List.cons_append, List.append_assoc],
            performs own hjobs (Or.inl rfl), hjobs'⟩
        · obtain ⟨rfl, rfl⟩ := List.append_eq_nil_iff.1 hnil
          obtain rfl := hjobs'.left_of_nil
          refine Or.inl ⟨left₁, rfl, ?_⟩
          simpa using performs own hjobs (Or.inr rfl)

end Unfolds

/-! ## What the driver performs -/

/-- The reactions that a driver has still to carry out, the next one first. -/
def World.pending (w : World) (i : MiddlewareId) : List Reaction :=
  (w.engine i).agenda.fresh ++ (w.engine i).agenda.stack

/--
On the way from a configuration to a later one, the driver of a middleware performs jobs. Below
its loop the instructions `rest` are left; in between it is at its loop when nothing else is.
-/
inductive Config.Logs (i : MiddlewareId) (rest : List Instr) (c : Config) :
    List Performed → Config → Prop
  | start : Logs i rest c [] c
  /-- A job is gone on with that was taken before. -/
  | before {c₁ c₂ : Config} (h : Logs i rest c [] c₁) (busy : c₁.todo ≠ .drain i :: rest)
      (step : c₁.step = some c₂) : Logs i rest c [] c₂
  /-- The driver takes a job. -/
  | takes {log : List Performed} {c₁ c₂ : Config} {job : Job} {agenda : Agenda}
      (h : Logs i rest c log c₁) (loop : c₁.todo = .drain i :: rest)
      (next : (c₁.world.engine i).agenda.next? = some (job, agenda)) (step : c₁.step = some c₂) :
      Logs i rest c (log ++ [⟨job, []⟩]) c₂
  /-- The job taken last is gone on with, or what it calls for. -/
  | works {log : List Performed} {c₁ c₂ : Config} {job : Job} {caused : List Reaction}
      (h : Logs i rest c (log ++ [⟨job, caused⟩]) c₁) (busy : c₁.todo ≠ .drain i :: rest)
      (step : c₁.step = some c₂) :
      Logs i rest c (log ++ [⟨job, (c₂.world.engine i).agenda.fresh⟩]) c₂

/-! ## Jobs only add to the agenda -/

/-- The agenda of an engine got more reactions of the present job, and more errands. -/
structure Core.Accrues (k k' : Core) : Prop extends k.Grows k' where
  errands : ∃ es, k'.agenda.errands = k.agenda.errands ++ es

namespace Core.Accrues

variable {k k₁ k' : Core}

theorem of_eq (h : k'.agenda = k.agenda) : k.Accrues k' where
  stack := congrArg Agenda.stack h
  fresh := ⟨[], by rw [h, List.append_nil]⟩
  errands := ⟨[], by rw [h, List.append_nil]⟩

theorem grow (h : k₁.agenda = k.agenda) (rs : List Reaction) (es : List Errand) :
    k.Accrues (k₁.grow rs es) where
  stack := by rw [← h]; rfl
  fresh := ⟨rs, by rw [← h]; rfl⟩
  errands := ⟨es, by rw [← h]; rfl⟩

theorem schedule (h : k₁.agenda = k.agenda) (rs : List Reaction) : k.Accrues (k₁.schedule rs) :=
  k₁.grow_reactions rs ▸ grow h rs []

theorem trans (h : k.Accrues k₁) (h' : k₁.Accrues k') : k.Accrues k' where
  stack := h'.stack.trans h.stack
  fresh := by
    obtain ⟨rs, h⟩ := h.fresh
    obtain ⟨rs', h'⟩ := h'.fresh
    exact ⟨rs ++ rs', by rw [h', h, List.append_assoc]⟩
  errands := by
    obtain ⟨es, h⟩ := h.errands
    obtain ⟨es', h'⟩ := h'.errands
    exact ⟨es ++ es', by rw [h', h, List.append_assoc]⟩

end Core.Accrues

section

variable {i : MiddlewareId} {k k' : Core} {G : List Instr} {D : List TaskId} {past es : List Event}
  {x : Instr} {t : TaskId}

theorem Core.agenda_create (k : Core) (parent : Option TaskId) (detached : Bool) :
    (k.create parent detached).agenda = k.agenda := by
  rw [k.create_eq]

theorem Begins.agenda {expected : Option EffectId} {signal : Option Signal}
    (h : Begins i k t expected signal k' G) : k'.agenda = k.agenda := by
  cases h with
  | skip | poll | leave => rfl

theorem Buries.accrues {outcome : Outcome} {c : Option Cascade}
    (h : Buries past k t outcome k' c es) : k.Accrues k' := by
  cases h with
  | absent => exact .of_eq rfl
  | gone => exact .schedule (Core.Defers.agenda_bury k t) _

/-- Every frame but the loop itself only adds to the agenda. -/
theorem Does.accrues (h : Does i past x k k' G D es) (hx : x.isDrain = false) : k.Accrues k' := by
  cases h with
  | rest | next => cases hx
  | start h | resume h | wake _ _ h => exact .of_eq h.agenda
  | errand | schedule | forwarded | forwardedCall | leaveYielded | answerSuspends =>
    exact .schedule (by rfl) _
  | triggerForks => exact .schedule (by rw [Core.agenda_create]; rfl) _
  | triggerSuspends => exact .grow (by rfl) _ _
  | allNext hk | allFull hk | allComplete hk =>
    rcases hk with ⟨_, _, rfl⟩ | ⟨_, _, rfl⟩ <;> exact .of_eq rfl
  | abortDone h | cancelOne h => exact h.accrues
  | conclude h =>
    have h := h.accrues
    exact ⟨⟨h.stack, h.fresh⟩, h.errands⟩
  | cascadeComplete _ _ _ h =>
    have h := h.accrues
    exact ⟨⟨h.stack, h.fresh⟩, h.errands⟩
  | cancel => exact .of_eq (Core.Defers.agenda_cancelAll k _)
  | _ => exact .of_eq rfl

/-- A driver at work only gets more on its agenda from user code. -/
theorem Intervenes.accrues (h : Intervenes i past k k' G es) (hd : k.driving = true)
    (hn : k.posture k.nextTask = none) : k.Accrues k' :=
  have hk := (h.defers hd hn).1
  ⟨hk.toGrows, hk.errands⟩

end

/-! ## The driver at its loop, and in between -/

/-- The next job is the first reaction; if there is none, it is the oldest errand. -/
theorem Agenda.next?_cases {a a' : Agenda} {job : Job} (h : a.next? = some (job, a')) :
    (∃ r rest, a.fresh ++ a.stack = r :: rest ∧ job = .reaction r ∧
        a' = { a with stack := rest, fresh := [] }) ∨
      ∃ e es, a.fresh ++ a.stack = [] ∧ a.errands = e :: es ∧ job = .errand e ∧
        a' = { stack := [], fresh := [], errands := es } := by
  simp only [next?, flush] at h
  split at h
  · rename_i r rest hr
    cases h
    exact Or.inl ⟨r, rest, hr, rfl, rfl⟩
  · rename_i hr
    split at h
    · rename_i e es he
      cases h
      exact Or.inr ⟨e, es, hr, he, rfl, by rw [hr]⟩
    · cases h

/-- The driver takes the next job. -/
theorem Config.loop_step {c c' : Config} {i : MiddlewareId} {rest : List Instr} {job : Job}
    {a : Agenda} (hi : c.world.Has i) (loop : c.todo = .drain i :: rest)
    (next : (c.world.engine i).agenda.next? = some (job, a)) (hc : c.step = some c') :
    c'.todo = .perform i job :: .drain i :: rest ∧ (c'.world.engine i).agenda = a := by
  obtain ⟨todo, w⟩ := c
  subst loop
  obtain rfl : (w.execDrain i).followedBy rest = c' := Option.some.inj hc
  have next : (w.engine i).agenda.next? = some (job, a) := next
  simp only [World.execDrain, next]
  exact ⟨rfl, congrArg Engine.agenda (World.engine_setEngine hi _)⟩

/-- The driver comes to rest. -/
theorem Config.loop_ends {c c' : Config} {i : MiddlewareId} {rest : List Instr}
    (loop : c.todo = .drain i :: rest) (next : (c.world.engine i).agenda.next? = none)
    (hc : c.step = some c') : c'.todo = rest := by
  obtain ⟨todo, w⟩ := c
  subst loop
  obtain rfl : (w.execDrain i).followedBy rest = c' := Option.some.inj hc
  have next : (w.engine i).agenda.next? = none := next
  simp only [World.execDrain, next]
  rfl

namespace Scenario.Visits

variable {s : Scenario} {c c' : Config} {w : World} {i : MiddlewareId} {x : Instr}
  {pre rest : List Instr}

/-- While the driver is at work, every step but its own only adds to the agenda. -/
theorem accrues (h : s.Visits ⟨x :: rest, w⟩) (hi : w.Has i) (hd : (w.engine i).driving = true)
    (hx : x.owner? = some i → x.isDrain = false) (hc : Config.step ⟨x :: rest, w⟩ = some c') :
    (w.core i).Accrues (c'.world.core i) := by
  have hsound := h.sound hi
  have hnext : (w.core i).posture (w.core i).nextTask = none := by
    cases hp : (w.core i).posture (w.core i).nextTask with
    | none => rfl
    | some p => exact absurd (hsound.orderly.tasks hp).number (Nat.lt_irrefl _)
  obtain ⟨next, -, rfl, hm⟩ := Config.meets_of_step h.knows hi hc
  cases hm with
  | own ho ha hdoes => exact ha.core ▸ hdoes.accrues (hx ho)
  | foreign _ ha hin => exact ha.core ▸ hin.accrues hd hnext
  | @drops t b hxd hn =>
    subst hxd hn
    exact .of_eq rfl
  | dies hxd hr =>
    subst hxd hr
    exact absurd rfl (hsound.framed.driving.1 hd)

/-- The driver is at work where its loop is below. -/
theorem driving (h : s.Visits c) (hi : c.world.Has i) (hpre : c.todo = pre ++ .drain i :: rest) :
    (c.world.engine i).driving = true := by
  refine (h.sound hi).framed.driving.2 fun hnil => ?_
  have hmem : .drain i ∈ framesOf i c.todo := by
    rw [hpre]
    exact List.mem_filter.2 ⟨List.mem_append_right _ List.mem_cons_self, by simp [Instr.owner?]⟩
  rw [show framesOf i c.todo = [] from hnil] at hmem
  cases hmem

/-- The loop of a driver is entered once. -/
theorem isDrain_of_below (h : s.Visits c) (hi : c.world.Has i)
    (hpre : c.todo = x :: pre ++ .drain i :: rest) (hx : x.owner? = some i) :
    x.isDrain = false := by
  cases hd : x.isDrain with
  | false => rfl
  | true =>
    have hone := (h.sound hi).framed.exclusive.drains
    have hloop : (Instr.drain i).owner? = some i := rfl
    rw [hpre, drainsOf, List.cons_append, framesOf_cons, if_pos hx, framesOf_append, framesOf_cons,
      if_pos hloop, List.filter_cons_of_pos hd, List.filter_append,
      List.filter_cons_of_pos rfl] at hone
    simp at hone

/-- What is above the loop is carried out, and the loop stays below. -/
theorem busy_step (h : s.Visits c) (hi : c.world.Has i) (hpre : c.todo = pre ++ .drain i :: rest)
    (busy : c.todo ≠ .drain i :: rest) (hc : c.step = some c') :
    (∃ pre', c'.todo = pre' ++ .drain i :: rest) ∧
      (c.world.core i).Accrues (c'.world.core i) := by
  obtain ⟨todo, w⟩ := c
  cases pre with
  | nil => exact absurd hpre busy
  | cons x pre =>
    have hd := h.driving hi hpre
    have hx := h.isDrain_of_below hi hpre
    obtain rfl : todo = x :: (pre ++ .drain i :: rest) := hpre
    refine ⟨?_, h.accrues hi hd hx hc⟩
    obtain ⟨next, -, rfl⟩ := Option.map_eq_some_iff.1 hc
    exact ⟨next.todo ++ pre, (List.append_assoc ..).symm⟩

end Scenario.Visits

/-! ## The order of the jobs -/

namespace Config.Logs

variable {s : Scenario} {c d c' : Config} {i : MiddlewareId} {rest pre : List Instr}
  {log : List Performed}

theorem visits (hlog : c.Logs i rest log c') (h : s.Visits c) : s.Visits c' := by
  induction hlog with
  | start => exact h
  | before _ _ hc ih | takes _ _ _ hc ih | works _ _ hc ih => exact ih.step hc

theorem has (hlog : c.Logs i rest log c') (h : s.Visits c) (hi : c.world.Has i) :
    c'.world.Has i := by
  induction hlog with
  | start => exact hi
  | before hl _ hc ih | takes hl _ _ hc ih | works hl _ hc ih =>
    exact ((hl.visits h).knows.has_iff hc i).2 ih

/-- The loop stays below whatever a job calls for. -/
theorem loop_below (hlog : c.Logs i rest log c') (h : s.Visits c) (hi : c.world.Has i)
    (hpre : c.todo = pre ++ .drain i :: rest) : ∃ pre', c'.todo = pre' ++ .drain i :: rest := by
  induction hlog with
  | start => exact ⟨pre, hpre⟩
  | before hl busy hc ih | works hl busy hc ih =>
    obtain ⟨pre', ih⟩ := ih
    exact ((hl.visits h).busy_step (hl.has h hi) ih busy hc).1
  | @takes log c₁ _ job _ hl loop next hc ih =>
    exact ⟨[.perform i job], (Config.loop_step (hl.has h hi) loop next hc).1⟩

/-- Before the first job is taken, the present job only adds to the agenda. -/
theorem before_accrues (hlog : c.Logs i rest [] c') (h : s.Visits c) (hi : c.world.Has i)
    (hpre : c.todo = pre ++ .drain i :: rest) : (c.world.core i).Accrues (c'.world.core i) := by
  generalize hnil : ([] : List Performed) = log at hlog
  induction hlog with
  | start => exact .of_eq rfl
  | before hl busy hc ih =>
    obtain ⟨pre', hpre'⟩ := hl.loop_below h hi hpre
    exact (ih rfl).trans ((hl.visits h).busy_step (hl.has h hi) hpre' busy hc).2
  | takes | works => simp at hnil

/-- At the loop nothing is left of the job before. -/
theorem eq_of_loop (hlog : c.Logs i rest [] c') (loop : c.todo = .drain i :: rest) : c' = c := by
  generalize hnil : ([] : List Performed) = log at hlog
  induction hlog with
  | start => rfl
  | before _ busy _ ih =>
    rw [ih rfl] at busy
    exact absurd loop busy
  | takes | works => simp at hnil

/-- A step before the first job is taken leaves all jobs to be taken after it. -/
theorem forward (hlog : c.Logs i rest log c') (busy : c.todo ≠ .drain i :: rest)
    (hd : c.step = some d) (hne : c' ≠ c) : d.Logs i rest log c' := by
  have key : (log = [] ∧ c' = c) ∨ d.Logs i rest log c' := by
    clear hne
    induction hlog with
    | start => exact Or.inl ⟨rfl, rfl⟩
    | before _ hbusy hc ih =>
      rcases ih with ⟨-, rfl⟩ | ih
      · cases hd.symm.trans hc
        exact Or.inr .start
      · exact Or.inr (.before ih hbusy hc)
    | takes _ loop next hc ih =>
      rcases ih with ⟨-, rfl⟩ | ih
      · exact absurd loop busy
      · exact Or.inr (.takes ih loop next hc)
    | works _ hbusy hc ih =>
      rcases ih with ⟨hnil, -⟩ | ih
      · simp at hnil
      · exact Or.inr (.works ih hbusy hc)
  exact key.resolve_left fun h => hne h.2

/-- The jobs are taken from the loop on. -/
theorem from_loop (hlog : c.Logs i rest log c') (hne : log ≠ []) :
    ∃ d, c.Logs i rest [] d ∧ d.todo = .drain i :: rest ∧ d.Logs i rest log c' := by
  induction hlog with
  | start | before => exact absurd rfl hne
  | @takes log c₁ c₂ job a hl loop next hc ih =>
    by_cases hnil : log = []
    · subst hnil
      exact ⟨c₁, hl, loop, Logs.start.takes loop next hc⟩
    · obtain ⟨d, hd, hloop, h⟩ := ih hnil
      exact ⟨d, hd, hloop, h.takes loop next hc⟩
  | works _ busy hc ih =>
    obtain ⟨d, hd, hloop, h⟩ := ih (by simp)
    exact ⟨d, hd, hloop, h.works busy hc⟩

/-- Until the driver comes to rest, every step is one on its way. -/
theorem goes_on (hlog : c.Logs i rest log c') (hc : c'.step = some d) :
    (∃ log', c.Logs i rest log' d) ∨ c'.todo = .drain i :: rest ∧ d.todo = rest ∧
      (c'.world.engine i).agenda.next? = none := by
  by_cases loop : c'.todo = .drain i :: rest
  · cases next : (c'.world.engine i).agenda.next? with
    | none => exact Or.inr ⟨loop, Config.loop_ends loop next hc, rfl⟩
    | some r => exact Or.inl ⟨_, hlog.takes loop next hc⟩
  · rcases List.eq_nil_or_concat log with rfl | ⟨log', p, rfl⟩
    · exact Or.inl ⟨_, hlog.before loop hc⟩
    · rw [List.concat_eq_append] at hlog
      exact Or.inl ⟨_, hlog.works loop hc⟩

/-- As long as the loop is below, every run is one on its way. -/
theorem run (hlog : c.Logs i rest log c') {n : Nat}
    (hn : ∀ m < n, rest.length < (c'.run (m + 1)).todo.length) :
    ∃ log', c.Logs i rest log' (c'.run n) := by
  induction n generalizing c' log with
  | zero => exact ⟨log, hlog⟩
  | succ n ih =>
    unfold Config.run
    split
    · exact ⟨log, hlog⟩
    · rename_i d hd
      have hrun : ∀ m, c'.run (m + 1) = d.run m := fun m => by
        rw [Config.run]
        simp only [hd]
      rcases hlog.goes_on hd with ⟨log', hlog'⟩ | ⟨-, hrest, -⟩
      · refine ih hlog' fun m hm => ?_
        rw [← hrun]
        exact hn (m + 1) (Nat.succ_lt_succ hm)
      · have := hn 0 (Nat.succ_pos n)
        rw [hrun, Config.run, hrest] at this
        exact absurd this (Nat.lt_irrefl _)

/-- The job taken last has caused what is fresh. -/
theorem caused (hlog : c.Logs i rest log c') (h : s.Visits c) (hi : c.world.Has i)
    {p : Performed} {log' : List Performed} (hp : log = log' ++ [p]) :
    p.caused = (c'.world.engine i).agenda.fresh := by
  cases hlog with
  | start | before => simp at hp
  | takes hl loop next hc =>
    obtain ⟨-, hp⟩ := List.append_inj' hp rfl
    cases hp
    have ha := (Config.loop_step (hl.has h hi) loop next hc).2
    rw [ha]
    rcases Agenda.next?_cases next with ⟨r, rest', -, -, rfl⟩ | ⟨e, es, -, -, -, rfl⟩ <;> rfl
  | works =>
    obtain ⟨-, hp⟩ := List.append_inj' hp rfl
    cases hp
    rfl

end Config.Logs

namespace Scenario.Visits

variable {s : Scenario} {c c' : Config} {i : MiddlewareId} {rest : List Instr}
  {log : List Performed}

/--
From its loop on the driver executes the reactions that it has, in order and each with everything
that follows from it, and after them errands, in the order in which they were queued; what is
left of this is what it still has to do.
-/
theorem unfolds (h : s.Visits c) (hi : c.world.Has i) (loop : c.todo = .drain i :: rest)
    (hlog : c.Logs i rest log c') : ∃ taken queued : List Errand,
      (c.world.engine i).agenda.errands ++ queued =
        taken ++ (c'.world.engine i).agenda.errands ∧
      Unfolds ((c.world.pending i).map .reaction ++ taken.map .errand) log
        ((c'.world.pending i).map .reaction) := by
  induction hlog with
  | start =>
    refine ⟨[], [], by simp, ?_⟩
    rw [List.map_nil, List.append_nil]
    exact .waits _
  | before hl busy hc ih =>
    rw [hl.eq_of_loop loop] at busy
    exact absurd loop busy
  | @takes log c₁ c₂ job a hl loop₁ next hc ih =>
    obtain ⟨taken, queued, herr, hun⟩ := ih
    have ha := (Config.loop_step (hl.has h hi) loop₁ next hc).2
    rcases Agenda.next?_cases next with ⟨r, rs, hr, rfl, rfl⟩ | ⟨e, es, hr, he, rfl, rfl⟩
    · refine ⟨taken, queued, by rw [herr, ha], ?_⟩
      have hpending : c₁.world.pending i = r :: rs := hr
      rw [hpending, List.map_cons] at hun
      have hpending' : c₂.world.pending i = rs := by simp [World.pending, ha]
      rw [hpending']
      exact hun.take
    · refine ⟨taken ++ [e], queued, by rw [herr, ha, he, List.append_assoc]; rfl, ?_⟩
      have hpending : c₁.world.pending i = [] := hr
      rw [hpending] at hun
      have hpending' : c₂.world.pending i = [] := by simp [World.pending, ha]
      rw [hpending', List.map_append, ← List.append_assoc]
      exact (hun.append [.errand e]).take
  | @works log c₁ c₂ job caused hl busy hc ih =>
    obtain ⟨taken, queued, herr, hun⟩ := ih
    obtain ⟨pre, hpre⟩ := hl.loop_below h hi (show c.todo = [] ++ _ from loop)
    obtain ⟨-, hacc⟩ := (hl.visits h).busy_step (hl.has h hi) hpre busy hc
    obtain ⟨es, hes⟩ := hacc.errands
    have hes : (c₂.world.engine i).agenda.errands = (c₁.world.engine i).agenda.errands ++ es := hes
    have hstack : (c₂.world.engine i).agenda.stack = (c₁.world.engine i).agenda.stack := hacc.stack
    refine ⟨taken, queued ++ es, by rw [hes, ← List.append_assoc, herr, List.append_assoc], ?_⟩
    obtain ⟨left, hleft, hmore⟩ := hun.causes
    have hfresh : caused = (c₁.world.engine i).agenda.fresh := hl.caused h hi rfl
    rw [World.pending, List.map_append, hfresh] at hleft
    have hpending : (c₂.world.pending i).map Job.reaction =
        (c₂.world.engine i).agenda.fresh.map .reaction ++ left := by
      rw [World.pending, List.map_append, hstack, List.append_cancel_left hleft]
    rw [hpending]
    exact hmore _

end Scenario.Visits

end SagaMachine
