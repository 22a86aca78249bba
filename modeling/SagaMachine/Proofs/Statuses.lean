import SagaMachine.Proofs.Awaiting

/-!
# How statuses change

A task is created, then it is running and suspended in turns, and at last it may become terminal.
Which terminal status it has is settled when it becomes terminal: the frames that record its
outcome later, and the mark for the outcome of the task whose step is under way, agree with it.
Only a task that is not terminal is polled, and only for such a task an effect is triggered.

Main statements: `Moves.matures`, `Judged.move`, `Records.verdict`.
-/

namespace SagaMachine

/-! ## The order of statuses -/

/-- One status of a task comes right after another one. -/
inductive Status.Next : Status → Status → Prop
  | starts : Next .created .running
  | resumes : Next .suspended .running
  | suspends : Next .running .suspended
  | ends {s s' : Status} (live : s.isTerminal = false) (terminal : s'.isTerminal = true) : Next s s'

/-- A status stays, or the next one comes. -/
def Status.Becomes (s s' : Status) : Prop := s' = s ∨ s.Next s'

theorem Status.Becomes.refl (s : Status) : s.Becomes s := Or.inl rfl

/-- Nothing comes after a terminal status. -/
theorem Status.Becomes.of_terminal {s s' : Status} (h : s.Becomes s') (hs : s.isTerminal = true) :
    s' = s := by
  rcases h with h | h
  · exact h
  · cases h with
    | ends live => rw [hs] at live; cases live
    | _ => cases hs

/-! ## What events tell of a task -/

/-- The task that an event says was created. -/
def Event.started? : Event → Option TaskId
  | .taskStarted t _ _ => some t
  | _ => none

/-- The task that goes on, as an event says: its body is polled, or an effect of it is triggered. -/
def Event.act? : Event → Option TaskId
  | .polled t _ | .triggered t .. => some t
  | _ => none

/-- No task is created, and none goes on. -/
def Passive (es : List Event) : Prop := ∀ e ∈ es, e.started? = none ∧ e.act? = none

theorem Passive.nil : Passive [] := fun e he => by cases he

theorem Passive.cons {e : Event} {es : List Event} (he : e.started? = none ∧ e.act? = none)
    (h : Passive es) : Passive (e :: es) := by
  intro f hf
  rcases List.mem_cons.1 hf with rfl | hf
  · exact he
  · exact h f hf

theorem Passive.append {es es' : List Event} (h : Passive es) (h' : Passive es') :
    Passive (es ++ es') := fun e he => (List.mem_append.1 he).elim (h e) (h' e)

theorem Quiet.passive {es : List Event} (h : Quiet es) : Passive es := by
  intro e he
  have hq := h e he
  cases e with
  | taskStarted | polled | triggered => exact hq.elim
  | _ => exact ⟨rfl, rfl⟩

theorem Passive.passages (ps : List Passage) : Passive (ps.map Passage.event) := by
  intro e he
  obtain ⟨p, -, rfl⟩ := List.mem_map.1 he
  cases p <;> exact ⟨rfl, rfl⟩

theorem Passive.settled (x : EffectId) (signal : Signal) : Passive [.settled x signal] :=
  .cons ⟨rfl, rfl⟩ .nil

/-! ## Growing older -/

/-- What a move means for the statuses of the tasks, with the events that it comes with. -/
structure Core.Matures (k : Core) (es : List Event) (k' : Core) : Prop where
  old : ∀ {t p p'}, k.posture t = some p → k'.posture t = some p' → p.status.Becomes p'.status
  new : ∀ {t p'}, k.posture t = none → k'.posture t = some p' →
    k.nextTask ≤ t ∧ p'.status = .created
  births : (k'.nextTask = k.nextTask ∧ es.filterMap Event.started? = []) ∨
    k'.nextTask = k.nextTask + 1 ∧ es.filterMap Event.started? = [k.nextTask] ∧
      ∃ p', k'.posture k.nextTask = some p'
  acts : ∀ e ∈ es, ∀ t, e.act? = some t → k.Live t

section

variable {i : MiddlewareId} {k k' k'' : Core} {t u : TaskId} {es past : List Event}
  {x : Instr} {F F' G : List Instr} {D : List TaskId} {s : Status}

theorem Passive.births (h : Passive es) : es.filterMap Event.started? = [] :=
  List.filterMap_eq_nil_iff.2 fun e he => (h e he).1

theorem Passive.acts (h : Passive es) : ∀ e ∈ es, ∀ t, e.act? = some t → k.Live t := by
  intro e he t ht
  rw [(h e he).2] at ht
  cases ht

theorem Core.nextTask_cancelAll (k : Core) (order : List TaskId) :
    (k.cancelAll order).nextTask = k.nextTask := by
  rw [k.cancelAll_eq]

theorem Core.halted_cancelAll (k : Core) (order : List TaskId) :
    (k.cancelAll order).halted = k.halted := by
  rw [k.cancelAll_eq]

namespace Core.Matures

theorem number (h : k.Matures es k') : k.nextTask ≤ k'.nextTask := by
  rcases h.births with ⟨hn, -⟩ | ⟨hn, -⟩
  · exact Nat.le_of_eq hn.symm
  · exact hn ▸ Nat.le_succ _

/-- No task changes. -/
theorem of_posture (hp : k'.posture = k.posture) (hn : k'.nextTask = k.nextTask) (hes : Passive es) :
    k.Matures es k' where
  old h h' := by
    rw [hp, h] at h'
    cases h'
    exact .refl _
  new h h' := by
    rw [hp, h] at h'
    cases h'
  births := Or.inl ⟨hn, hes.births⟩
  acts := hes.acts

/-- No task changes when an effect of a live task is triggered, or its body is polled. -/
theorem of_act (hl : k.Live t) {e : Event} (he : e.started? = none ∧ e.act? = some t)
    (hp : k'.posture = k.posture) (hn : k'.nextTask = k.nextTask) (hes : Passive es) :
    k.Matures (e :: es) k' where
  old := (of_posture hp hn hes).old
  new := (of_posture hp hn hes).new
  births := Or.inl ⟨hn, by rw [List.filterMap_cons, he.1]; exact hes.births⟩
  acts f hf u hu := by
    rcases List.mem_cons.1 hf with rfl | hf
    · rw [he.2] at hu
      cases hu
      exact hl
    · exact hes.acts f hf u hu

theorem congr (h : k.Matures es k') (hp : k''.posture = k'.posture) (hn : k''.nextTask = k'.nextTask) :
    k.Matures es k'' where
  old := hp ▸ h.old
  new := hp ▸ h.new
  births := by
    rw [hp, hn]
    exact h.births
  acts := h.acts

theorem of_same {k₀ : Core} (h : k₀.Matures es k') (hp : k₀.posture = k.posture)
    (hn : k₀.nextTask = k.nextTask) : k.Matures es k' where
  old := hp ▸ h.old
  new := hp ▸ hn ▸ h.new
  births := hn ▸ h.births
  acts e he t ht := by
    have hl := h.acts e he t ht
    rwa [Live, hp] at hl

/-- The status of a task changes. -/
theorem alter {f : Posture → Posture} (hf : ∀ p, k.posture t = some p → p.status.Becomes (f p).status)
    (hes : Passive es) : k.Matures es (k.alter t f) where
  old {u p p'} hp hp' := by
    rw [posture_alter] at hp'
    split at hp'
    · rename_i hut
      subst hut
      rw [hp] at hp'
      cases hp'
      exact hf p hp
    · rw [hp] at hp'
      cases hp'
      exact .refl _
  new {u p'} hp hp' := by
    rw [posture_alter] at hp'
    split at hp'
    · rename_i hut
      rw [← hut, hp] at hp'
      cases hp'
    · rw [hp] at hp'
      cases hp'
  births := Or.inl ⟨rfl, hes.births⟩
  acts := hes.acts

/-- A change of a task before, that leaves its status as it is, does not matter. -/
theorem of_alter {f : Posture → Posture} (h : (k.alter t f).Matures es k')
    (hf : ∀ p, (f p).status = p.status) : k.Matures es k' := by
  have hpost : ∀ {u p}, k.posture u = some p →
      ∃ q, (k.alter t f).posture u = some q ∧ q.status = p.status := by
    intro u p hp
    rw [posture_alter]
    split
    · rename_i hut
      exact ⟨f p, by rw [← hut, hp]; rfl, hf p⟩
    · exact ⟨p, hp, rfl⟩
  have hnone : ∀ {u}, k.posture u = none → (k.alter t f).posture u = none := by
    intro u hu
    rw [posture_alter]
    split
    · rename_i hut
      rw [← hut, hu]
      rfl
    · exact hu
  refine ⟨fun {u p p'} hp hp' => ?_, fun {u p'} hp hp' => h.new (hnone hp) hp', h.births,
    fun e he u hu => ?_⟩
  · obtain ⟨q, hq, hs⟩ := hpost hp
    exact hs ▸ h.old hq hp'
  · obtain ⟨q, hq, hl⟩ := h.acts e he u hu
    cases hp : k.posture u with
    | none =>
      rw [hnone hp] at hq
      cases hq
    | some p =>
      obtain ⟨q', hq', hs⟩ := hpost hp
      rw [hq] at hq'
      cases hq'
      exact ⟨p, hp, hs ▸ hl⟩

/-- A task leaves the table. -/
theorem bury (k : Core) (t : TaskId) (hes : Passive es) : k.Matures es (k.bury t) where
  old {u p p'} hp hp' := by
    obtain ⟨-, q, hq, -, -, hs, -⟩ := Core.of_posture_bury hp'
    rw [hp] at hq
    cases hq
    exact Or.inl hs
  new {u p'} hp hp' := by
    obtain ⟨-, q, hq, -⟩ := Core.of_posture_bury hp'
    rw [hp] at hq
    cases hq
  births := Or.inl ⟨k.nextTask_bury t, hes.births⟩
  acts := hes.acts

/-- Live tasks are cancelled. -/
theorem cancelAll {order : List TaskId} (hl : ∀ u ∈ order, k.Live u) :
    k.Matures [] (k.cancelAll order) where
  old {u p p'} hp hp' := by
    rw [posture_cancelAll, hp] at hp'
    cases hp'
    split
    · rename_i hu
      obtain ⟨q, hq, hlive⟩ := hl u hu
      rw [hp] at hq
      cases hq
      exact Or.inr (.ends hlive rfl)
    · exact .refl _
  new {u p'} hp hp' := by
    rw [posture_cancelAll, hp] at hp'
    cases hp'
  births := Or.inl ⟨k.nextTask_cancelAll order, rfl⟩
  acts := Passive.nil.acts

/-- A task is created. -/
theorem create {parent : Option TaskId} (detached : Bool) (hn : k.posture k.nextTask = none)
    (hpar : parent ≠ some k.nextTask) {e : Event} (he : e.started? = some k.nextTask ∧ e.act? = none) :
    k.Matures [e] (k.create parent detached) where
  old {u p p'} hp hp' := by
    have hu : u ≠ k.nextTask := fun hu => by rw [hu, hn] at hp; cases hp
    rw [posture_create k detached hpar, if_neg hu, hp] at hp'
    cases hp'
    rw [welcome_eq]
    exact .refl _
  new {u p'} hp hp' := by
    rw [posture_create k detached hpar] at hp'
    split at hp'
    · rename_i hu
      cases hp'
      exact ⟨Nat.le_of_eq hu.symm, rfl⟩
    · rw [hp] at hp'
      cases hp'
  births := by
    refine Or.inr ⟨k.nextTask_create .., by simp [he.1], ?_⟩
    exact ⟨_, by rw [posture_create k detached hpar, if_pos rfl]⟩
  acts f hf u hu := by
    rw [List.mem_singleton.1 hf, he.2] at hu
    cases hu

/-- The step of a task begins, or is skipped. -/
theorem begins {expected : Option EffectId} {signal : Option Signal} (h : Begins i k t expected signal k' G)
    (hstand : ∀ {p}, k.posture t = some p → p.status.isTerminal = false → p.hasBody = true →
      p.status = .created ∨ p.status = .suspended) (hes : Passive es) : k.Matures es k' := by
  have henter : ∀ {p}, k.posture t = some p → p.status.isTerminal = false → p.hasBody = true →
      k.Matures es (k.enterTurn t) := by
    intro p hp hl hb
    refine (alter (t := t) (f := fun p => { p with hasBody := false, status := .running })
      (fun q hq => ?_) hes).congr rfl rfl
    rw [hp] at hq
    cases hq
    rcases hstand hp hl hb with hs | hs
    · exact Or.inr (hs ▸ .starts)
    · exact Or.inr (hs ▸ .resumes)
  cases h with
  | skip => exact .of_posture rfl rfl hes
  | poll hp hl _ hb => exact henter hp hl hb
  | leave hp hl _ hb => exact henter hp hl hb

/-- A task that is stepped is parked. -/
theorem park {pending : Option EffectId} (hrun : ∀ p, k.posture t = some p → p.status = .running) :
    k.Matures [] (k.park t pending) :=
  (alter (t := t) (f := fun p => { p with hasBody := true, pending, status := .suspended })
    (fun p hp => Or.inr ((hrun p hp) ▸ .suspends)) .nil).congr rfl rfl

end Core.Matures

/-- A task whose body is at work, and that is live, is running. -/
theorem Core.Afoot.running (h : k.Afoot t) (hl : k.Live t) {p : Posture} (hp : k.posture t = some p) :
    p.status = .running := by
  obtain ⟨q, hq, hlive⟩ := hl
  rw [hp] at hq
  cases hq
  exact (h.2 p hp).2.2 hlive

/-- The task whose step is under way is running, if it is live. -/
theorem Orderly.running (ho : Orderly i k (x :: F)) (hs : Stack i k.current (x :: F))
    (hx : x.turn? = some t) (hl : k.Live t) {p : Posture} (hp : k.posture t = some p) :
    p.status = .running :=
  (ho.driver (hs.of_turn hx).1).1.running hl hp

/-- A new task does not have a number that is used, and it is not its own parent. -/
theorem Orderly.unborn (ho : Orderly i k F) : k.posture k.nextTask = none := by
  cases hp : k.posture k.nextTask with
  | none => rfl
  | some p => exact absurd (ho.tasks hp).number (Nat.lt_irrefl _)

theorem Orderly.ne_unborn (ho : Orderly i k F) (hl : k.Live t) : t ≠ k.nextTask := by
  rintro rfl
  obtain ⟨p, hp, -⟩ := hl
  rw [ho.unborn] at hp
  cases hp

theorem Orderly.begins (h : Orderly i k F) {p : Posture} (hp : k.posture t = some p)
    (hl : p.status.isTerminal = false) (hb : p.hasBody = true) :
    p.status = .created ∨ p.status = .suspended := by
  cases (h.tasks hp).standing hl with
  | created hs => exact Or.inl hs
  | yielded hs | parked hs => exact Or.inr hs
  | running _ hn | waiting hn => rw [hn] at hb; cases hb

theorem Buries.matures {outcome : Outcome} {c : Option Cascade} (h : Buries past k t outcome k' c es) :
    k.Matures es k' := by
  cases h with
  | absent => exact .of_posture rfl rfl .nil
  | gone _ _ hq => exact (Core.Matures.bury k t (.cons ⟨rfl, rfl⟩ hq.passive)).congr rfl rfl

/-- What a frame means for the statuses of the tasks. -/
theorem Does.matures (h : Does i past x k k' G D es) (ho : Orderly i k (x :: F))
    (hs : Stack i k.current (x :: F))
    (hpoll : ∀ turn b a, x = .poll turn b a → k.Live turn.task) : k.Matures es k' := by
  have hrel := ho.frames x List.mem_cons_self
  cases h with
  | rest | next | answerSuspends | leaveFinished | leaveEnded | leaveFailed | leaveHalted |
    schedule | abortLate | cascadeAbort | cascadeLate | cancelLate | cancelledAll | cancelledLate |
    returnedLate | advance | polledHalted | polledComplete | polledYielded | triggerHalted |
    cancelHalted | begunHalt | begunSuspends | begunHalted | begunEnds | begunPolls | begunYields |
    raceNext | raceFull | raceLost | abortHalts | cancelHalts => exact .of_posture rfl rfl .nil
  | answerSettles | cancelSettles | allLost => exact .of_posture rfl rfl (.settled _ _)
  | settle => exact .of_posture rfl rfl (.passages _)
  | errand _ _ hq | emit hq | forwarded _ _ hq | forwardedCall _ hq =>
    exact .of_posture rfl rfl hq.passive
  | begunWithdraws | raceHalt | allHalt => exact .of_posture rfl rfl (.passages _)
  | raceDecided | allFailed =>
    exact .of_posture rfl rfl ((Passive.passages _).append (.settled _ _))
  | poll => exact .of_act (hpoll _ _ _ rfl) ⟨rfl, rfl⟩ rfl rfl .nil
  | triggerCalls hl | triggerCancels hl | triggerOpens hl => exact .of_act hl ⟨rfl, rfl⟩ rfl rfl .nil
  | triggerSettles hl _ hq =>
    exact .of_act hl ⟨rfl, rfl⟩ rfl rfl (hq.passive.append (.settled _ _))
  | triggerSuspends hl _ _ _ hq => exact .of_act hl ⟨rfl, rfl⟩ rfl rfl hq.passive
  | allNext hk | allFull hk =>
    obtain ⟨_, -, rfl⟩ | ⟨_, -, rfl⟩ := hk <;> exact .of_posture rfl rfl .nil
  | allComplete hk =>
    obtain ⟨_, -, rfl⟩ | ⟨_, -, rfl⟩ := hk <;> exact .of_posture rfl rfl (.settled _ _)
  | start hb | resume hb => exact .begins hb ho.begins .nil
  | @wake _ id signal _ _ _ _ _ hb =>
    have h := Core.Matures.begins hb ho.begins
      (Passive.passages (Waits.settle k.waits id signal).passages)
    exact ⟨h.old, h.new, h.births, h.acts⟩
  | @triggerForks _ t b nests e hl he saga detached v =>
    have hpar : some t ≠ some k.nextTask := fun he => ho.ne_unborn hl (Option.some.inj he)
    have h := Core.Matures.create (k := k.number) (e := .taskStarted k.nextTask (some t) saga)
      detached ho.unborn hpar ⟨rfl, rfl⟩
    refine ⟨h.old, h.new, h.births, fun f hf u hu => ?_⟩
    rcases List.mem_cons.1 hf with rfl | hf
    · cases hu
      exact hl
    · rcases List.mem_pair.1 hf with rfl | rfl <;> cases hu
  | leaveSuspended => exact .park fun p hp => ho.running hs rfl hrel hp
  | leaveYielded => exact (Core.Matures.park fun p hp => ho.running hs rfl hrel hp).congr rfl rfl
  | returned => exact .alter (fun p _ => .refl _) .nil
  | returnedHeld hp hl =>
    exact .alter (fun q hq => Or.inr ((hrel.running ⟨_, hp, hl⟩ hq) ▸ .suspends)) .nil
  | @abort _ t f p hp hl =>
    refine (Core.Matures.alter (t := t)
      (f := fun p => { p with status := .aborted, pending := none, hasBody := false })
      (fun q hq => ?_) (.passages _)).congr rfl rfl
    rw [hp] at hq
    cases hq
    exact Or.inr (.ends hl rfl)
  | cancel _ hlive => exact .cancelAll hlive
  | @cancelEach _ t rest cascades p hp =>
    exact (Core.Matures.alter (t := t) (f := fun p => { p with pending := none, hasBody := false })
      (fun q hq => .refl _) (.passages _)).congr rfl rfl
  | abortDone hb | cancelOne hb => exact hb.matures
  | conclude hb =>
    have h := hb.matures
    exact ⟨h.old, h.new, h.births, h.acts⟩
  | cascadeComplete hp hl hv hb => exact hb.matures.of_alter fun _ => rfl

/-! ## What is settled when a task becomes terminal -/

/-- The task has a status, if it is still there. -/
def Core.Stands (k : Core) (t : TaskId) (s : Status) : Prop :=
  t < k.nextTask ∧ ∀ p, k.posture t = some p → p.status = s

/-- What a frame takes for granted of the status of its task. -/
def Instr.Judges (k : Core) : Instr → Prop
  | .poll turn _ _ => k.Live turn.task
  | .abortDone turn _ _ => k.Stands turn.task .aborted
  | .conclude turn => k.Stands turn.task .cancelled
  | .cancelEach _ order _ => ∀ t ∈ order, k.Stands t .cancelled
  | .cancelOne turn _ order _ => k.Stands turn.task .cancelled ∧ ∀ t ∈ order, k.Stands t .cancelled
  | _ => True

/--
The frames agree with the statuses of their tasks, and a task that became terminal within its own
step was cancelled.
-/
structure Judged (k : Core) (F : List Instr) : Prop where
  frames : ∀ x ∈ F, x.Judges k
  halted : ∀ o, k.halted = some o → o = .cancelled
  current : ∀ t, k.current = some t → k.Live t ∨ k.Stands t .cancelled

theorem Core.Stands.mature (h : k.Stands t s) (hs : s.isTerminal = true) (hm : k.Matures es k') :
    k'.Stands t s := by
  refine ⟨Nat.lt_of_lt_of_le h.1 hm.number, fun p' hp' => ?_⟩
  cases hp : k.posture t with
  | none => exact absurd h.1 (Nat.not_lt_of_le (hm.new hp hp').1)
  | some p =>
    have hb := hm.old hp hp'
    rw [h.2 p hp] at hb
    exact hb.of_terminal hs

theorem Instr.Judges.mature (h : x.Judges k) (hu : ¬ x.Urgent) (hm : k.Matures es k') :
    x.Judges k' := by
  cases x with
  | poll => exact (hu trivial).elim
  | abortDone | conclude => exact h.mature rfl hm
  | cancelEach => exact fun t ht => (h t ht).mature rfl hm
  | cancelOne => exact ⟨h.1.mature rfl hm, fun t ht => (h.2 t ht).mature rfl hm⟩
  | _ => trivial

/-- The first frame gives way to others. -/
theorem Judged.frames_mature (h : Judged k (x :: F)) (hu : ∀ y ∈ F, ¬ y.Urgent)
    (hm : k.Matures es k') (hG : ∀ g ∈ G, g.Judges k') : ∀ y ∈ G ++ F, y.Judges k' := by
  intro y hy
  rcases List.mem_append.1 hy with hy | hy
  · exact hG y hy
  · exact (h.frames y (List.mem_cons_of_mem _ hy)).mature (hu y hy) hm

theorem Judged.carry (h : Judged k (x :: F)) (hu : ∀ y ∈ F, ¬ y.Urgent) (hm : k.Matures es k')
    (hG : ∀ g ∈ G, g.Judges k') (hh : k'.halted = k.halted)
    (hcur : ∀ t, k'.current = some t → k'.Live t ∨ k'.Stands t .cancelled) : Judged k' (G ++ F) where
  frames := h.frames_mature hu hm hG
  halted o ho := h.halted o (hh ▸ ho)
  current := hcur

/-- No task changes. -/
theorem Judged.still (h : Judged k (x :: F)) (hu : ∀ y ∈ F, ¬ y.Urgent) (hp : k'.posture = k.posture)
    (hn : k'.nextTask = k.nextTask) (hh : k'.halted = k.halted)
    (hcur : ∀ t, k'.current = some t → k.current = some t) (hG : ∀ g ∈ G, g.Judges k') :
    Judged k' (G ++ F) := by
  refine h.carry hu (.of_posture hp hn .nil) hG hh fun t ht => ?_
  simp only [Core.Live, Core.Stands, hp, hn]
  exact h.current t (hcur t ht)

theorem Instr.judges_nil : ∀ g ∈ ([] : List Instr), g.Judges k := fun g hg => by cases hg

theorem Instr.judges_one {g : Instr} (h : g.Judges k) : ∀ y ∈ [g], y.Judges k := by
  intro y hy
  rw [List.mem_singleton.1 hy]
  exact h

theorem Instr.judges_cascades (cs : List Cascade) : ∀ g ∈ cs.map (Instr.cascade i), g.Judges k := by
  intro g hg
  obtain ⟨c, -, rfl⟩ := List.mem_map.1 hg
  trivial

/-- A task becomes terminal within its own step by a cancellation only. -/
theorem Judged.current_mature (h : Judged k F) (ho : Orderly i k F')
    (hm : k.Matures es k')
    (hend : ∀ {p p'}, k.posture t = some p → p.status.isTerminal = false → k'.posture t = some p' →
      p'.status.isTerminal = false ∨ p'.status = .cancelled) (hc : k.current = some t) :
    k'.Live t ∨ k'.Stands t .cancelled := by
  rcases h.current t hc with ⟨p, hp, hl⟩ | hs
  · have hn := Nat.lt_of_lt_of_le (ho.tasks hp).number hm.number
    cases hp' : k'.posture t with
    | none => exact Or.inr ⟨hn, fun q hq => by rw [hp'] at hq; cases hq⟩
    | some p' =>
      rcases hend hp hl hp' with hl' | hs'
      · exact Or.inl ⟨p', hp', hl'⟩
      · refine Or.inr ⟨hn, fun q hq => ?_⟩
        rw [hp'] at hq
        cases hq
        exact hs'
  · exact Or.inr (hs.mature rfl hm)

/-- A task changes, but not in its status. -/
theorem Judged.alter (h : Judged k (x :: F)) (ho : Orderly i k (x :: F)) (hu : ∀ y ∈ F, ¬ y.Urgent)
    {f : Posture → Posture} (hf : ∀ p, k.posture t = some p → p.status.Becomes (f p).status ∧
      ((f p).status.isTerminal = false ∨ (f p).status = p.status))
    (hp : k'.posture = (k.alter t f).posture) (hn : k'.nextTask = k.nextTask)
    (hh : k'.halted = k.halted) (hcur : ∀ t, k'.current = some t → k.current = some t)
    (hG : ∀ g ∈ G, g.Judges k') : Judged k' (G ++ F) := by
  have hm : k.Matures [] k' := (Core.Matures.alter (fun p hp => (hf p hp).1) .nil).congr hp hn
  refine h.carry hu hm hG hh fun u hu => h.current_mature ho hm (fun {p p'} hq hl hq' => ?_) (hcur u hu)
  rw [hp, Core.posture_alter] at hq'
  split at hq'
  · rename_i hut
    subst hut
    rw [hq] at hq'
    cases hq'
    rcases (hf p hq).2 with hs | hs
    · exact Or.inl hs
    · exact Or.inl (hs ▸ hl)
  · rw [hq] at hq'
    cases hq'
    exact Or.inl hl

/-- A task is created. -/
theorem Judged.creates (h : Judged k (x :: F)) (ho : Orderly i k F') (hu : ∀ y ∈ F, ¬ y.Urgent)
    {parent : Option TaskId} (detached : Bool) (hpar : ∀ u, parent = some u → k.Live u)
    (hp : k'.posture = (k.create parent detached).posture) (hn : k'.nextTask = k.nextTask + 1)
    (hh : k'.halted = k.halted) (hc : k'.current = k.current) (hG : ∀ g ∈ G, g.Judges k') :
    Judged k' (G ++ F) := by
  have hne : parent ≠ some k.nextTask := fun he => ho.ne_unborn (hpar _ he) rfl
  have hm : k.Matures [.taskStarted k.nextTask parent ""] k' :=
    (Core.Matures.create detached ho.unborn hne ⟨rfl, rfl⟩).congr hp
      (hn.trans (k.nextTask_create ..).symm)
  refine h.carry hu hm hG hh fun u hcu => ?_
  refine h.current_mature ho hm (fun {q q'} hq hl hq' => Or.inl ?_) (hc ▸ hcu)
  have hu : u ≠ k.nextTask := ho.ne_unborn ⟨q, hq, hl⟩
  rw [hp, Core.posture_create k detached hne, if_neg hu, hq] at hq'
  cases hq'
  rw [Core.welcome_eq]
  exact hl

/-- The step of a task begins, or is skipped. -/
theorem Judged.begins {k₀ : Core} {expected : Option EffectId} {signal : Option Signal}
    (h : Judged k (x :: F)) (ho : Orderly i k (x :: F)) (hu : ∀ y ∈ F, ¬ y.Urgent)
    (hb : Begins i k₀ t expected signal k' G) (hp : k₀.posture = k.posture)
    (hn : k₀.nextTask = k.nextTask) (hh : k₀.halted = k.halted) (hc : k₀.current = k.current) :
    Judged k' (G ++ F) := by
  have hm : k.Matures [] k' := (Core.Matures.begins hb (fun hq => ho.begins (hp ▸ hq)) .nil).of_same hp hn
  have henter : ∀ {p g}, k₀.posture t = some p → k' = k₀.enterTurn t → G = [g] →
      (k'.Live t → g.Judges k') → Judged k' (G ++ F) := by
    rintro p g hq rfl rfl hg
    have hlive : (k₀.enterTurn t).Live t :=
      ⟨{ p with hasBody := false, status := .running }, by simp [Core.enterTurn, hq], rfl⟩
    refine h.carry hu hm (Instr.judges_one (hg hlive)) hh fun u hu => ?_
    cases hu
    exact Or.inl hlive
  cases hb with
  | skip => exact h.still hu hp hn hh (fun _ hc' => hc ▸ hc') Instr.judges_nil
  | poll hq => exact henter hq rfl rfl id
  | leave hq => exact henter hq rfl rfl fun _ => trivial

/-- The outcome of a task is recorded, unless the task is gone. -/
theorem Judged.buries {k₀ : Core} {outcome : Outcome} {c : Option Cascade} {f : Posture → Posture}
    (h : Judged k (x :: F)) (ho : Orderly i k (x :: F)) (hu : ∀ y ∈ F, ¬ y.Urgent)
    (hb : Buries past k₀ t outcome k' c es) (hp : k₀.posture = (k.alter t f).posture)
    (hf : ∀ p, (f p).status = p.status) (hn : k₀.nextTask = k.nextTask)
    (hh : k₀.halted = k.halted ∨ k₀.halted = none) (hc : k₀.current = k.current)
    (hG : k.Matures es k' → ∀ g ∈ G, g.Judges k') : Judged k' (G ++ F) := by
  have hm : k.Matures es k' := (hb.matures.of_same hp hn).of_alter hf
  have hkeep : k'.halted = k₀.halted ∧ k'.current = k₀.current := by
    cases hb with
    | absent => exact ⟨rfl, rfl⟩
    | gone => exact ⟨k₀.halted_bury t, (k₀.paced_bury t).current⟩
  -- whoever stays in the table keeps its status
  have hstay : ∀ {u p p'}, k.posture u = some p → k'.posture u = some p' → p'.status = p.status := by
    intro u p p' hu hu'
    obtain ⟨q, hq, hs⟩ : ∃ q, k₀.posture u = some q ∧ q.status = p.status := by
      rw [hp, Core.posture_alter]
      split
      · rename_i hut
        exact ⟨f p, by rw [← hut, hu]; rfl, hf p⟩
      · exact ⟨p, hu, rfl⟩
    rw [← hs]
    cases hb with
    | absent => rw [hq] at hu'; cases hu'; rfl
    | gone =>
      obtain ⟨-, q', hq', -, -, hs', -⟩ := Core.of_posture_bury hu'
      rw [hq] at hq'
      cases hq'
      exact hs'
  refine ⟨h.frames_mature hu hm (hG hm), fun o hho => ?_, fun u hcu => ?_⟩
  · rcases hh with hh | hh
    · exact h.halted o (hh ▸ hkeep.1 ▸ hho)
    · rw [hkeep.1, hh] at hho
      cases hho
  · exact h.current_mature ho hm (fun hq hl hq' => Or.inl ((hstay hq hq') ▸ hl))
      (hc ▸ hkeep.2 ▸ hcu)

/-- Every frame leaves the frames in agreement with the statuses. -/
theorem Does.judged (h : Does i past x k k' G D es) (hj : Judged k (x :: F)) (ho : Orderly i k (x :: F))
    (hs : Stack i k.current (x :: F)) (hu : ∀ y ∈ F, ¬ y.Urgent) : Judged k' (G ++ F) := by
  have hx := hj.frames x List.mem_cons_self
  have hrel := ho.frames x List.mem_cons_self
  cases h with
  | rest | schedule | abortLate | cascadeLate | cancelLate | returnedLate | forwarded | settle =>
    exact hj.still hu rfl rfl rfl (fun _ => id) Instr.judges_nil
  | answerSuspends | emit | forwardedCall | polledHalted | polledComplete | polledYielded |
    triggerHalted | triggerSettles | triggerSuspends | triggerCalls | triggerOpens | answerSettles |
    cancelHalted | cancelSettles | begunHalt | begunWithdraws | begunSuspends | begunHalted |
    begunEnds | begunYields | raceHalt | raceNext | raceFull | raceLost | raceDecided | allHalt |
    allFailed | allLost | cascadeAbort =>
    exact hj.still hu rfl rfl rfl (fun _ => id) (Instr.judges_one trivial)
  | allNext hk | allFull hk | allComplete hk =>
    obtain ⟨_, -, rfl⟩ | ⟨_, -, rfl⟩ := hk <;>
      exact hj.still hu rfl rfl rfl (fun _ => id) (Instr.judges_one trivial)
  | begunPolls hl => exact hj.still hu rfl rfl rfl (fun _ => id) (Instr.judges_one hl)
  | leaveFinished | leaveEnded | leaveFailed =>
    exact hj.still hu rfl rfl rfl (fun _ ht => by cases ht) (Instr.judges_one trivial)
  | cancelledAll => exact hj.still hu rfl rfl rfl (fun _ => id) (Instr.judges_cascades _)
  | next | triggerCancels =>
    refine hj.still hu rfl rfl rfl (fun _ => id) fun g hg => ?_
    rcases List.mem_pair.1 hg with rfl | rfl <;> trivial
  | errand hG =>
    refine hj.still hu rfl rfl rfl (fun _ => id) ?_
    rcases hG with rfl | ⟨g, rfl, hg⟩
    · exact Instr.judges_nil
    · refine Instr.judges_one ?_
      cases g with
      | emit | forwarded | schedule => trivial
      | _ => exact hg.elim
  | poll hg | advance hg =>
    refine hj.still hu rfl rfl rfl (fun _ => id) (Instr.judges_one ?_)
    rename_i g
    cases g with
    | advance | polled => trivial
    | _ => exact hg.elim
  | start hb | resume hb => exact hj.begins ho hu hb rfl rfl rfl rfl
  | wake _ _ hb => exact hj.begins ho hu hb rfl rfl rfl rfl
  | @triggerForks _ t b nests e hl he saga detached v =>
    have hpar : ∀ u, some t = some u → k.Live u := by
      rintro u ⟨⟩
      exact hl
    refine hj.creates ho hu detached hpar ?_ (k.number.nextTask_create ..) ?_ ?_ (Instr.judges_one trivial) <;>
      cases detached <;> rfl
  | @leaveSuspended _ t b id =>
    exact hj.alter (t := t) (f := fun p => { p with hasBody := true, pending := some id, status := .suspended })
      ho hu (fun q hq => ⟨Or.inr ((ho.running hs rfl hrel hq) ▸ .suspends), Or.inl rfl⟩) rfl rfl rfl
      (fun _ ht => by cases ht) Instr.judges_nil
  | @leaveYielded _ t b signal =>
    exact hj.alter (t := t) (f := fun p => { p with hasBody := true, pending := none, status := .suspended })
      ho hu (fun q hq => ⟨Or.inr ((ho.running hs rfl hrel hq) ▸ .suspends), Or.inl rfl⟩) rfl rfl rfl
      (fun _ ht => by cases ht) Instr.judges_nil
  | @leaveHalted _ t b =>
    have hstands : k.Stands t .cancelled :=
      (hj.current t (hs.of_turn (t := t) rfl).1).resolve_left hrel
    exact hj.still hu rfl rfl rfl (fun _ ht => by cases ht) (Instr.judges_one hstands)
  | @returned _ t v p hp hl =>
    exact hj.alter (t := t) (f := fun p => { p with result := some v }) ho hu
      (fun q hq => ⟨.refl _, Or.inr rfl⟩) rfl rfl rfl (fun _ => id) (Instr.judges_one trivial)
  | @returnedHeld _ t v p hp hl =>
    exact hj.alter (t := t) (f := fun p => { p with result := some v, status := .suspended }) ho hu
      (fun q hq => ⟨Or.inr ((hrel.running ⟨_, hp, hl⟩ hq) ▸ .suspends), Or.inl rfl⟩) rfl rfl rfl
      (fun _ => id) Instr.judges_nil
  | @abort _ t f p hp hl =>
    have hne : k.current ≠ some t := by
      rw [(hs.of_ends trivial).1]
      exact fun h => by cases h
    let k₁ := k.alter t fun p => { p with status := .aborted, pending := none, hasBody := false }
    have hm : k.Matures [] k₁ := by
      refine .alter (fun q hq => ?_) .nil
      rw [hp] at hq
      cases hq
      exact Or.inr (.ends hl rfl)
    have hstands : k₁.Stands t .aborted := by
      refine ⟨(ho.tasks hp).number, fun q hq => ?_⟩
      simp only [k₁, Core.posture_alter, if_true, hp, Option.map_some, Option.some_inj] at hq
      rw [← hq]
    refine hj.carry hu (hm.congr rfl rfl) (fun g hg => ?_) rfl fun u hu => ?_
    · rcases List.mem_append.1 hg with hg | hg
      · obtain ⟨c, -, rfl⟩ := List.mem_map.1 hg
        trivial
      · rw [List.mem_singleton.1 hg]
        exact hstands
    · refine hj.current_mature ho (hm.congr rfl rfl) (fun {q q'} hq hlive hq' => ?_) hu
      have hut : u ≠ t := fun h => hne (h ▸ hu)
      have hq' : k₁.posture u = some q' := hq'
      rw [Core.posture_alter, if_neg hut, hq] at hq'
      cases hq'
      exact Or.inl hlive
  | abortHalts => exact (hs.not_abortHalts).elim
  | abortDone hb =>
    exact hj.buries (f := fun p => p) ho hu hb (by rw [k.alter_id]) (fun _ => rfl) rfl (Or.inl rfl)
      rfl fun _ => Instr.judges_cascades _
  | conclude hb =>
    exact hj.buries (f := fun p => p) ho hu hb (by rw [k.alter_id]) (fun _ => rfl) rfl (Or.inr rfl)
      rfl fun _ => Instr.judges_cascades _
  | cascadeComplete hp hl hv hb =>
    exact hj.buries ho hu hb rfl (fun _ => rfl) rfl (Or.inl rfl) rfl fun _ => Instr.judges_cascades _
  | @cancel _ t order hl hlive =>
    have hm := Core.Matures.cancelAll hlive
    refine hj.carry hu hm (Instr.judges_one fun u hu => ?_) ?_ fun u hu => ?_
    · obtain ⟨p, hp, -⟩ := hlive u hu
      refine ⟨Nat.lt_of_lt_of_le (ho.tasks hp).number hm.number, fun q hq => ?_⟩
      rw [Core.posture_cancelAll, hp, Option.map_some, if_pos hu] at hq
      cases hq
      rfl
    · exact k.halted_cancelAll order
    · refine hj.current_mature ho hm (fun {q q'} hq hl hq' => ?_) ((k.paced_cancelAll order).current ▸ hu)
      rw [Core.posture_cancelAll, hq] at hq'
      cases hq'
      split
      · exact Or.inr rfl
      · exact Or.inl hl
  | cancelledLate =>
    exact hj.still hu rfl rfl rfl (fun _ => id)
      (Instr.judges_one fun u hu => hx u (List.mem_cons_of_mem _ hu))
  | @cancelEach _ t rest cascades p hp =>
    refine hj.alter (t := t) (f := fun p => { p with pending := none, hasBody := false }) ho hu
      (fun q hq => ⟨.refl _, Or.inr rfl⟩) rfl rfl rfl (fun _ => id) (Instr.judges_one ?_)
    have hm := (Core.Matures.alter (k := k) (t := t) (f := fun p => { p with pending := none, hasBody := false })
      (fun q hq => .refl _) .nil)
    exact ⟨(hx t List.mem_cons_self).mature rfl (hm.congr rfl rfl),
      fun u hu => (hx u (List.mem_cons_of_mem _ hu)).mature rfl (hm.congr rfl rfl)⟩
  | cancelHalts =>
    refine ⟨hj.frames_mature hu (.of_posture rfl rfl .nil) (Instr.judges_one fun u hu => hx.2 u hu),
      fun o ho => ?_, hj.current⟩
    cases ho
    rfl
  | cancelOne hb =>
    exact hj.buries (f := fun p => p) ho hu hb (by rw [k.alter_id]) (fun _ => rfl) rfl (Or.inl rfl)
      rfl fun hm => Instr.judges_one fun u hu => (hx.2 u hu).mature rfl hm

/-! ## Moves -/

theorem Drives.unmoved {work : List Instr} (h : Drives i k work k' G) : k.Unmoved k' := by
  cases h <;> exact ⟨rfl, rfl, rfl, rfl⟩

/-- What user code means for the statuses of the tasks. -/
theorem Intervenes.matures (h : Intervenes i past k k' G es) (ho : Orderly i k F) :
    k.Matures es k' := by
  cases h with
  | quietly hq | queues _ hq => exact .of_posture rfl rfl hq.passive
  | settles _ hd hq => exact .of_posture hd.unmoved.posture hd.unmoved.nextTask hq.passive
  | cancels hd => exact .of_posture hd.unmoved.posture hd.unmoved.nextTask .nil
  | sends => exact .of_posture rfl rfl .nil
  | @spawns k' G name hd =>
    have hroot : none ≠ some k.nextTask := fun h => by cases h
    have h : k.Matures [.taskStarted k.nextTask none name] (k.create none false) :=
      .create false ho.unborn hroot ⟨rfl, rfl⟩
    exact h.congr hd.unmoved.posture hd.unmoved.nextTask

theorem Instr.IsRequest.judges (h : x.IsRequest) : x.Judges k := by
  cases x with
  | cancel | drain | emit => trivial
  | _ => exact h.elim

/-- User code leaves the frames in agreement with the statuses. -/
theorem Intervenes.judged (h : Intervenes i past k k' G es) (hj : Judged k F) (ho : Orderly i k F)
    (hu : ∀ y ∈ F, ¬ y.Urgent) : Judged k' (G ++ F) := by
  have hG : ∀ g ∈ G, g.Judges k' := fun g hg => (h.requests g hg).judges
  -- user code counts as a frame that goes away
  have hj' : Judged k (.guards [] :: F) :=
    ⟨fun y hy => (List.mem_cons.1 hy).elim (fun he => he ▸ trivial) (hj.frames y), hj.halted,
      hj.current⟩
  have hstill : ∀ {k₁ : Core}, k₁.Unmoved k' → k₁.posture = k.posture → k₁.nextTask = k.nextTask →
      k₁.halted = k.halted → k₁.current = k.current → Judged k' (G ++ F) := by
    intro k₁ hd hp hn hh hc
    exact hj'.still hu (hd.posture.trans hp) (hd.nextTask.trans hn) (hd.halted.trans hh)
      (fun t ht => hc ▸ hd.current ▸ ht) hG
  cases h with
  | quietly | queues | sends => exact hstill ⟨rfl, rfl, rfl, rfl⟩ rfl rfl rfl rfl
  | settles _ hd | cancels hd => exact hstill hd.unmoved rfl rfl rfl rfl
  | spawns hd =>
    have hroot : ∀ u, none = some u → k.Live u := nofun
    exact hj'.creates ho hu false hroot hd.unmoved.posture hd.unmoved.nextTask hd.unmoved.halted
      hd.unmoved.current hG

theorem Judged.start : Judged (Engine.core {}) [] where
  frames x hx := by cases hx
  halted o ho := by cases ho
  current t ht := by cases ht

/-- Every move leaves the frames in agreement with the statuses. -/
theorem Judged.move {v v' : View} (hj : Judged v.core v.frames) (hv : Sound i v) (h : Moves i v v') :
    Judged v'.core v'.frames := by
  cases h with
  | does h hu => exact h.judged hj hv.orderly hv.framed.stack hu
  | intervenes h hu => exact h.judged hj hv.orderly hu
  | still => exact hj
  | drops => exact hj
  | dies => exact .start

/-- What a move means for the statuses of the tasks, unless the middleware dies. -/
theorem Moves.matures {v v' : View} (h : Moves i v v') (hv : Sound i v) (hj : Judged v.core v.frames)
    (ha : v'.alive = true) : ∃ es, v'.past = es.reverse ++ v.past ∧ v.core.Matures es v'.core := by
  cases h with
  | does h =>
    refine ⟨_, rfl, h.matures hv.orderly hv.framed.stack ?_⟩
    rintro turn b a rfl
    exact hj.frames _ List.mem_cons_self
  | intervenes h => exact ⟨_, rfl, h.matures hv.orderly⟩
  | still => exact ⟨[], rfl, .of_posture rfl rfl .nil⟩
  | @drops alive k F t D past =>
    exact ⟨[.bodyDropped t], rfl, .of_posture rfl rfl (.cons ⟨rfl, rfl⟩ .nil)⟩
  | dies => cases ha

/-- The outcome that is recorded agrees with the status, which may have been settled before. -/
theorem Records.verdict {outcome : Outcome} {p : Posture} (h : Records i k t x outcome G)
    (hj : Judged k (x :: F)) (hp : k.posture t = some p) : p.status.Becomes outcome.status := by
  have hx := hj.frames x List.mem_cons_self
  cases h with
  | abort => exact Or.inl (hx.2 p hp).symm
  | cancel => exact Or.inl (hx.1.2 p hp).symm
  | conclude =>
    have hs : p.status = .cancelled := hx.2 p hp
    have ho : k.halted.getD .cancelled = .cancelled := by
      cases hh : k.halted with
      | none => rfl
      | some o => exact hj.halted o hh
    rw [ho, hs]
    exact .refl _
  | complete hq hl =>
    rw [hp] at hq
    cases hq
    exact Or.inr (.ends hl rfl)

end

end SagaMachine
