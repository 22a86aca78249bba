import SagaMachine.Proofs.Teardowns

/-!
# How the table of tasks turns over

Seen from the table of tasks a move does one of three things: tasks stay and grow older, perhaps
joined by a new one (`Core.Evolves`); or exactly one task leaves the table, and its outcome is
recorded, by one of four frames (`Records`); or the middleware dies, and its table is empty from
then on.

Main statement: `Moves.turnover`.
-/

namespace SagaMachine

/-! ## Tasks that stay -/

/--
The tasks stay in the table, and a new one may come in. What they hold stays, and only a task
whose body returned gets a value to hold.
-/
structure Core.Evolves (returns : TaskId → Value → Prop) (k k' : Core) : Prop where
  number : k.nextTask ≤ k'.nextTask
  kept : ∀ {u p}, k.posture u = some p → ∃ p', k'.posture u = some p' ∧ p'.parent = p.parent ∧
    p'.detached = p.detached ∧ (p'.status.isTerminal = false → p.status.isTerminal = false) ∧
    (∀ v, p'.result = some v → p.result = some v ∨ returns u v) ∧
    ∀ v, p.result = some v → p'.status.isTerminal = false → p'.result = some v
  new : ∀ {u p'}, k.posture u = none → k'.posture u = some p' → k.nextTask ≤ u ∧
    p'.result = none ∧ ∀ q, p'.parent = some q → k.Live q
  halted : ∀ v, k'.halted = some (.done v) → k.halted = some (.done v)

/-- A task leaves the table, and an instruction records its outcome and goes on with its parent. -/
inductive Records (i : MiddlewareId) (k : Core) (u : TaskId) : Instr → Outcome → List Instr → Prop
  | abort (f : Fault) : Records i k u (.abortDone ⟨i, u⟩ f false) (.aborted f)
      ((k.cascade u (.aborted f)).toList.map (.cascade i))
  | conclude : Records i k u (.conclude ⟨i, u⟩) (k.halted.getD .cancelled)
      ((k.cascade u (k.halted.getD .cancelled)).toList.map (.cascade i))
  | complete {p : Posture} {v : Value} (hp : k.posture u = some p)
      (hl : p.status.isTerminal = false) (hv : p.result = some v) :
      Records i k u (.cascade i (.complete u)) (.done v)
        ((k.cascade u (.done v)).toList.map (.cascade i))
  | cancel (rest : List TaskId) (cascades : List Cascade) :
      Records i k u (.cancelOne ⟨i, u⟩ false rest cascades) .cancelled
        [.cancelEach i rest (cascades ++ (k.cascade u .cancelled).toList)]

/-- What a move does to the table of tasks. -/
inductive Turnover (i : MiddlewareId) : View → View → Prop
  | evolves {v v' : View} {es : List Event} (alive : v'.alive = v.alive)
      (past : v'.past = es ++ v.past) (silent : finishedIn es = [])
      (core : v.core.Evolves (fun u r => ∃ F, v.frames = .returned ⟨i, u⟩ r :: F) v'.core) :
      Turnover i v v'
  | records {v v' : View} {x : Instr} {F G : List Instr} {u : TaskId} {q : Posture}
      {outcome : Outcome} {es : List Event} (alive : v'.alive = v.alive) (frames : v.frames = x :: F)
      (frames' : v'.frames = G ++ F) (head : Records i v.core u x outcome G)
      (here : v.core.posture u = some q)
      (past : v'.past = es ++ .taskFinished u outcome :: v.past) (silent : finishedIn es = [])
      (posture : v'.core.posture = (v.core.bury u).posture)
      (number : v'.core.nextTask = v.core.nextTask)
      (halted : v'.core.halted = v.core.halted ∨ v'.core.halted = none) : Turnover i v v'
  | dies {v v' : View} (alive : v'.alive = false) (past : v'.past = v.past)
      (core : v'.core = Engine.core {}) : Turnover i v v'

section

variable {i : MiddlewareId} {k k' k'' : Core} {returns : TaskId → Value → Prop} {t : TaskId}
  {f : Posture → Posture}

namespace Core.Evolves

theorem of_posture (hp : k'.posture = k.posture) (hn : k'.nextTask = k.nextTask)
    (hh : ∀ v, k'.halted = some (.done v) → k.halted = some (.done v)) :
    k.Evolves returns k' where
  number := Nat.le_of_eq hn.symm
  kept h := ⟨_, hp ▸ h, rfl, rfl, id, fun _ => Or.inl, fun _ h _ => h⟩
  new h h' := by
    rw [hp, h] at h'
    cases h'
  halted := hh

theorem congr (h : k.Evolves returns k') (hp : k''.posture = k'.posture)
    (hn : k''.nextTask = k'.nextTask) (hh : k''.halted = k'.halted) : k.Evolves returns k'' where
  number := hn ▸ h.number
  kept hq := by
    rw [hp]
    exact h.kept hq
  new hq hq' := h.new hq (hp ▸ hq')
  halted _ ho := h.halted _ (hh ▸ ho)

/-- The wait table and the numbers of effects do not matter. -/
theorem of_same {k₀ : Core} (h : k₀.Evolves returns k') (hp : k₀.posture = k.posture)
    (hn : k₀.nextTask = k.nextTask) (hh : k₀.halted = k.halted) : k.Evolves returns k' where
  number := hn ▸ h.number
  kept hq := h.kept (by rw [hp, hq])
  new hq hq' := by
    obtain ⟨h1, h2, h3⟩ := h.new (by rw [hp, hq]) hq'
    refine ⟨hn ▸ h1, h2, fun q hq => ?_⟩
    obtain ⟨r, hr, hl⟩ := h3 q hq
    exact ⟨r, hp ▸ hr, hl⟩
  halted v hv := hh ▸ h.halted v hv

/-- A task changes, but not its relatives. -/
theorem alter (h : ∀ p, k.posture t = some p → (f p).parent = p.parent ∧
    (f p).detached = p.detached ∧ ((f p).status.isTerminal = false → p.status.isTerminal = false) ∧
    (∀ v, (f p).result = some v → p.result = some v ∨ returns t v) ∧
    ∀ v, p.result = some v → (f p).status.isTerminal = false → (f p).result = some v) :
    k.Evolves returns (k.alter t f) where
  number := Nat.le_refl _
  kept {u p} hp := by
    by_cases hu : u = t
    · subst hu
      exact ⟨f p, by simp [hp], h p hp⟩
    · exact ⟨p, by simp [hu, hp], rfl, rfl, id, fun _ => Or.inl, fun _ h _ => h⟩
  new {u p'} hn hp := by
    rw [posture_alter] at hp
    split at hp
    · rename_i hu
      rw [← hu, hn] at hp
      cases hp
    · rw [hn] at hp
      cases hp
  halted _ h := h

/-- A task is created, as the child of a live one or as nobody's. -/
theorem create {parent : Option TaskId} (detached : Bool)
    (hn : ∀ {u p}, k.posture u = some p → u < k.nextTask) (hpar : ∀ u, parent = some u → k.Live u) :
    k.Evolves returns (k.create parent detached) := by
  have hpost := k.posture_create detached fun he => by
    obtain ⟨p, hp, -⟩ := hpar _ he
    exact Nat.lt_irrefl _ (hn hp)
  refine ⟨?_, ?_, ?_, ?_⟩
  · rw [k.nextTask_create]
    exact Nat.le_succ _
  · intro u p hp
    refine ⟨k.welcome parent detached u p, ?_, ?_⟩
    · rw [hpost, if_neg (Nat.ne_of_lt (hn hp)), hp]
      rfl
    · rw [k.welcome_eq]
      exact ⟨rfl, rfl, id, fun _ => Or.inl, fun _ h _ => h⟩
  · intro u p' hnone hp'
    rw [hpost, hnone] at hp'
    split at hp'
    · rename_i hu
      cases hp'
      exact ⟨Nat.le_of_eq hu.symm, rfl, hpar⟩
    · cases hp'
  · intro v hv
    have hh : (k.create parent detached).halted = k.halted := by
      rw [k.create_eq]
    exact hh ▸ hv

/-- Some tasks become terminal. -/
theorem cancelAll (order : List TaskId) : k.Evolves returns (k.cancelAll order) where
  number := by
    unfold Core.cancelAll
    induction order generalizing k with
    | nil => exact Nat.le_refl _
    | cons t order ih => exact ih (k := k.alter t _)
  kept {u p} hp := by
    refine ⟨_, by rw [k.posture_cancelAll, hp]; rfl, ?_⟩
    split
    · exact ⟨rfl, rfl, (fun h => by cases h), fun _ => Or.inl, fun _ h _ => h⟩
    · exact ⟨rfl, rfl, id, fun _ => Or.inl, fun _ h _ => h⟩
  new {u p'} hn hp := by
    rw [k.posture_cancelAll, hn] at hp
    cases hp
  halted v hv := by
    have hh : (k.cancelAll order).halted = k.halted := by
      unfold Core.cancelAll
      clear hv
      induction order generalizing k with
      | nil => rfl
      | cons t order ih => exact ih (k := k.alter t _)
    exact hh ▸ hv

/-- The step of a task begins, or is skipped. -/
theorem begins {expected : Option EffectId} {signal : Option Signal} {G : List Instr}
    (h : Begins i k t expected signal k' G) : k.Evolves returns k' := by
  have henter : ∀ {p : Posture}, k.posture t = some p → p.status.isTerminal = false →
      k.Evolves returns (k.enterTurn t) := by
    intro p hp hl
    refine (Evolves.alter (t := t) (f := fun p => { p with hasBody := false, status := .running })
      fun q hq => ⟨rfl, rfl, fun _ => ?_, fun _ => Or.inl, fun _ h _ => h⟩).congr rfl rfl rfl
    rw [hp] at hq
    cases hq
    exact hl
  cases h with
  | skip => exact .of_posture rfl rfl fun _ => id
  | poll hp hl => exact henter hp hl
  | leave hp hl => exact henter hp hl

/-- A live task is parked. -/
theorem park {pending : Option EffectId} (hl : k.Live t) : k.Evolves returns (k.park t pending) := by
  obtain ⟨p, hp, hl⟩ := hl
  refine (Evolves.alter (t := t) (f := fun p => { p with hasBody := true, pending, status := .suspended })
    fun q hq => ⟨rfl, rfl, fun _ => ?_, fun _ => Or.inl, fun _ h _ => h⟩).congr rfl rfl rfl
  rw [hp] at hq
  cases hq
  exact hl

/-- What is not live will not be. -/
theorem not_live (h : k.Evolves returns k') {u : TaskId} (hn : u < k.nextTask) (hu : ¬ k.Live u) :
    ¬ k'.Live u := by
  rintro ⟨p', hp', hl⟩
  cases hp : k.posture u with
  | none => exact Nat.not_lt_of_le (h.new hp hp').1 hn
  | some p =>
    obtain ⟨p'', hp'', -, -, hlive, -⟩ := h.kept hp
    rw [hp'] at hp''
    cases hp''
    exact hu ⟨p, hp, hlive hl⟩

end Core.Evolves

/-! ## What is recorded -/

theorem Quiet.finishedIn {es : List Event} (h : Quiet es) : finishedIn es = [] := by
  refine List.filterMap_eq_nil_iff.2 fun e he => ?_
  have hq := h e he
  cases e <;> first | rfl | exact hq.elim

theorem finishedIn_passages (ps : List Passage) : finishedIn (ps.map Passage.event) = [] := by
  refine List.filterMap_eq_nil_iff.2 fun e he => ?_
  obtain ⟨p, -, rfl⟩ := List.mem_map.1 he
  cases p <;> rfl

theorem finishedIn_reverse (es : List Event) : finishedIn es.reverse = (finishedIn es).reverse := by
  simp [finishedIn, List.filterMap_reverse]

/-- The end of a task depends on its relatives only. -/
theorem Core.posture_bury_altered (hk : k'.posture = (k.alter t f).posture) (hf : Core.Places f) :
    (k'.bury t).posture = (k.bury t).posture := by
  funext u
  rw [posture_bury, posture_bury]
  by_cases hu : u = t
  · rw [if_pos hu, if_pos hu]
  · have hshed : k'.shed t u = k.shed t u := by
      funext p
      simp only [shed, hk, posture_alter, if_true]
      cases k.posture t with
      | none => rfl
      | some q => simp only [Option.map_some, (hf q).1, (hf q).2.1]
    rw [if_neg hu, if_neg hu, hk, posture_alter, if_neg hu, hshed]

theorem Core.cascade_altered (hk : k'.posture = (k.alter t f).posture) (hf : Core.Places f)
    (outcome : Outcome) : k'.cascade t outcome = k.cascade t outcome := by
  have ht : k'.posture t = (k.posture t).map f := by simp [hk]
  cases hp : k.posture t with
  | none => simp [cascade, hp, ht]
  | some p =>
    have hne : ∀ u, u ≠ t → k'.posture u = k.posture u := fun u hu => by simp [hk, hu]
    refine cascade_congr hp (by simp [ht, hp]) (hf p).1 (hf p).2.1 ?_ ?_ outcome
    · intro u hu hn
      rw [hne u hu, hn]
    · intro u q hu hq
      exact ⟨q, by rw [hne u hu, hq], rfl, rfl, fun _ => rfl⟩

theorem Core.halted_bury (k : Core) (t : TaskId) : (k.bury t).halted = k.halted := by
  rw [k.bury_eq]

variable {past : List Event} {x : Instr} {F G : List Instr} {D D' : List TaskId} {es : List Event}
  {alive : Bool} {outcome : Outcome} {c : Option Cascade}

/-- A move that leaves the tasks in the table. -/
theorem Turnover.of_evolves (hk : k.Evolves (fun u r => ∃ F', x :: F = .returned ⟨i, u⟩ r :: F') k')
    (hes : finishedIn es = []) :
    Turnover i ⟨alive, k, x :: F, D, past⟩ ⟨alive, k', G ++ F, D' ++ D, es.reverse ++ past⟩ :=
  .evolves rfl rfl (by rw [finishedIn_reverse, hes]; rfl) hk

/-- The outcome of a task is recorded, unless the task is gone. -/
theorem Buries.turnover {k₁ : Core} (h : Buries past k₁ t outcome k' c es)
    (hk : k₁.posture = (k.alter t f).posture) (hf : Core.Places f) (hn : k₁.nextTask = k.nextTask)
    (hh : k₁.halted = k.halted ∨ k₁.halted = none)
    (head : c = k.cascade t outcome → Records i k t x outcome G) :
    Turnover i ⟨alive, k, x :: F, D, past⟩ ⟨alive, k', G ++ F, D' ++ D, es.reverse ++ past⟩ := by
  have ht : k₁.posture t = (k.posture t).map f := by simp [hk]
  cases h with
  | absent habs =>
    have hnone : k.posture t = none := by
      rw [ht] at habs
      exact Option.map_eq_none_iff.1 habs
    refine .of_evolves (.of_posture ?_ hn fun v hv => ?_) rfl
    · rw [hk]
      funext u
      by_cases hu : u = t <;> simp [hu, hnone]
    · rcases hh with hh | hh
      · exact hh ▸ hv
      · rw [hh] at hv
        cases hv
  | @gone q hq rs hs es' hquiet =>
    rw [ht] at hq
    obtain ⟨p, hp, -⟩ := Option.map_eq_some_iff.1 hq
    refine .records rfl rfl rfl (head (Core.cascade_altered hk hf outcome)) hp
      (show _ = es'.reverse ++ _ by simp) ?_ (Core.posture_bury_altered hk hf) ?_ ?_
    · rw [finishedIn_reverse, hquiet.finishedIn]
      rfl
    · exact (k₁.nextTask_bury t).trans hn
    · rw [show ((k₁.bury t).schedule rs).halted = k₁.halted from k₁.halted_bury t]
      exact hh

/-- What a frame does to the table of tasks. -/
theorem Does.turnover (h : Does i past x k k' G D' es) (ho : Orderly i k (x :: F)) :
    Turnover i ⟨alive, k, x :: F, D, past⟩ ⟨alive, k', G ++ F, D' ++ D, es.reverse ++ past⟩ := by
  have hrel := ho.frames x List.mem_cons_self
  have hnumber : ∀ {u p}, k.posture u = some p → u < k.nextTask := fun hp => (ho.tasks hp).number
  cases h with
  | rest | next | answerSuspends | leaveFinished | leaveEnded | leaveFailed | leaveHalted |
    schedule | abortLate | cascadeAbort | cascadeLate | cancelLate | cancelledAll | cancelledLate |
    returnedLate | advance | poll | polledHalted | polledComplete | polledYielded | triggerHalted |
    triggerCalls | triggerCancels | triggerOpens | answerSettles | cancelHalted | cancelSettles |
    begunHalt | begunSuspends | begunHalted | begunEnds | begunPolls | begunYields | raceNext |
    raceFull | raceLost | allLost =>
    exact .of_evolves (.of_posture rfl rfl fun _ => id) rfl
  | abortHalts | cancelHalts =>
    exact .of_evolves (.of_posture rfl rfl fun _ hv => by cases hv) rfl
  | settle => exact .of_evolves (.of_posture rfl rfl fun _ => id) (finishedIn_passages _)
  | errand _ _ hq | emit hq | forwarded _ _ hq | forwardedCall _ hq =>
    exact .of_evolves (.of_posture rfl rfl fun _ => id) hq.finishedIn
  | begunWithdraws | raceHalt | allHalt =>
    exact .of_evolves (.of_posture rfl rfl fun _ => id) (finishedIn_passages _)
  | raceDecided | allFailed =>
    refine .of_evolves (.of_posture rfl rfl fun _ => id) ?_
    rw [finishedIn_append, finishedIn_passages]
    rfl
  | triggerSettles _ _ hq =>
    refine .of_evolves (.of_posture rfl rfl fun _ => id) ?_
    rw [List.cons_append]
    show finishedIn (_ ++ _) = []
    rw [finishedIn_append, hq.finishedIn]
    rfl
  | triggerSuspends _ _ _ _ hq => exact .of_evolves (.of_posture rfl rfl fun _ => id) hq.finishedIn
  | allNext hk | allFull hk | allComplete hk =>
    obtain ⟨_, -, rfl⟩ | ⟨_, -, rfl⟩ := hk <;>
      exact .of_evolves (.of_posture rfl rfl fun _ => id) rfl
  | start hb | resume hb => exact .of_evolves (.begins hb) rfl
  | wake _ _ hb =>
    exact .of_evolves ((Core.Evolves.begins hb).of_same rfl rfl rfl) (finishedIn_passages _)
  | triggerForks hl he saga detached v =>
    refine .of_evolves ?_ rfl
    refine Core.Evolves.of_same
      ((Core.Evolves.create (k := k.number) detached hnumber ?_).congr rfl rfl rfl) rfl rfl rfl
    intro u hu
    cases hu
    exact hl
  | leaveSuspended => exact .of_evolves (.park hrel) rfl
  | leaveYielded => exact .of_evolves ((Core.Evolves.park hrel).congr rfl rfl rfl) rfl
  | @returned _ t v p hp hl hc =>
    refine .of_evolves (.alter fun q hq => ⟨rfl, rfl, id, ?_, ?_⟩) rfl
    · rintro r hr
      cases hr
      exact Or.inr ⟨_, rfl⟩
    · intro r hr
      rw [(hrel.2 q hq).2.1] at hr
      cases hr
  | @returnedHeld _ t v p hp hl hc =>
    refine .of_evolves (.alter fun q hq => ⟨rfl, rfl, fun _ => ?_, ?_, ?_⟩) rfl
    · rw [hp] at hq
      cases hq
      exact hl
    · rintro r hr
      cases hr
      exact Or.inr ⟨_, rfl⟩
    · intro r hr
      rw [(hrel.2 q hq).2.1] at hr
      cases hr
  | @abort _ t f p hp hl =>
    refine .of_evolves (Core.Evolves.congr (.alter (t := t)
      (f := fun p => { p with status := .aborted, pending := none, hasBody := false })
      fun q hq => ⟨rfl, rfl, (fun h => by cases h), fun _ => Or.inl, fun _ h _ => h⟩) rfl rfl rfl)
      (finishedIn_passages _)
  | cancel => exact .of_evolves (.cancelAll _) rfl
  | @cancelEach _ t rest cascades p hp =>
    refine .of_evolves (Core.Evolves.congr (.alter (t := t)
      (f := fun p => { p with pending := none, hasBody := false })
      fun q hq => ⟨rfl, rfl, id, fun _ => Or.inl, fun _ h _ => h⟩) rfl rfl rfl)
      (finishedIn_passages _)
  | @abortDone _ t f _ c _ hb =>
    refine hb.turnover (f := fun p => p) (by rw [k.alter_id]) (fun _ => ⟨rfl, rfl, rfl⟩) rfl
      (Or.inl rfl) ?_
    rintro rfl
    exact .abort f
  | conclude hb =>
    refine hb.turnover (f := fun p => p) (by rw [k.alter_id]) (fun _ => ⟨rfl, rfl, rfl⟩) rfl
      (Or.inr rfl) ?_
    rintro rfl
    exact .conclude
  | cascadeComplete hp hl hv hb =>
    refine hb.turnover rfl (fun _ => ⟨rfl, rfl, rfl⟩) rfl (Or.inl rfl) ?_
    rintro rfl
    exact .complete hp hl hv
  | cancelOne hb =>
    refine hb.turnover (f := fun p => p) (by rw [k.alter_id]) (fun _ => ⟨rfl, rfl, rfl⟩) rfl
      (Or.inl rfl) ?_
    rintro rfl
    exact .cancel _ _

theorem Drives.evolves {work : List Instr} {returns : TaskId → Value → Prop}
    (h : Drives i k' work k'' G) (hk : k.Evolves returns k') : k.Evolves returns k'' := by
  cases h with
  | within => exact hk
  | starts => exact hk.congr rfl rfl rfl

/-- User code records no outcome. -/
theorem Intervenes.silent (h : Intervenes i past k k' G es) : finishedIn es = [] := by
  cases h with
  | quietly hq | queues _ hq => exact hq.finishedIn
  | settles _ _ hq => exact hq.finishedIn
  | spawns | cancels | sends => rfl

/-- What user code does to the table of tasks. -/
theorem Intervenes.evolves (h : Intervenes i past k k' G es) (ho : Orderly i k F)
    (returns : TaskId → Value → Prop) : k.Evolves returns k' := by
  cases h with
  | quietly | queues | sends => exact .of_posture rfl rfl fun _ => id
  | spawns h =>
    refine h.evolves ((Core.Evolves.create false (fun hp => (ho.tasks hp).number) ?_).congr rfl rfl rfl)
    intro u hu
    cases hu
  | settles _ h => exact h.evolves (.of_posture rfl rfl fun _ => id)
  | cancels h => exact h.evolves (.of_posture rfl rfl fun _ => id)

/-- What a move does to the table of tasks. -/
theorem Moves.turnover {v v' : View} (h : Moves i v v') (hv : Sound i v) : Turnover i v v' := by
  cases h with
  | does h => exact h.turnover hv.orderly
  | intervenes h =>
    exact .evolves rfl rfl (by rw [finishedIn_reverse, h.silent]; rfl) (h.evolves hv.orderly _)
  | still => exact .evolves rfl (List.nil_append _).symm rfl (.of_posture rfl rfl fun _ => id)
  | @drops alive k F t D past =>
    exact .evolves rfl (List.singleton_append (x := Event.bodyDropped t)).symm rfl (.of_posture rfl rfl fun _ => id)
  | dies => exact .dies rfl rfl rfl

end

/-! ## Who records -/

section

variable {i : MiddlewareId} {w : World} {x : Instr} {rest : List Instr} {c c' : Config}

/-- A frame that user code asks for. -/
def Instr.IsRequest : Instr → Prop
  | .cancel .. | .drain _ | .emit .. => True
  | _ => False

theorem Drives.requests {k k' : Core} {work G : List Instr} (h : Drives i k work k' G)
    (hw : ∀ y ∈ work, y.IsRequest) : ∀ y ∈ G, y.IsRequest := by
  cases h with
  | within => exact hw
  | starts =>
    intro y hy
    rcases List.mem_append.1 hy with hy | hy
    · exact hw y hy
    · rw [List.mem_singleton.1 hy]
      trivial

theorem Intervenes.requests {k k' : Core} {G : List Instr} {past es : List Event}
    (h : Intervenes i past k k' G es) : ∀ y ∈ G, y.IsRequest := by
  cases h with
  | quietly | queues => exact fun y hy => by cases hy
  | spawns h | settles _ h => exact h.requests fun y hy => by cases hy
  | cancels h =>
    refine h.requests fun y hy => ?_
    rw [List.mem_singleton.1 hy]
    trivial
  | sends =>
    intro y hy
    rw [List.mem_singleton.1 hy]
    trivial

/-- What an instruction that is not a middleware's own comes to for it. -/
structure World.Foreign (i : MiddlewareId) (w : World) (c : Config) : Prop where
  silent : ∃ es, c.world.past i = es ++ w.past i ∧ finishedIn es = []
  requests : ∀ y ∈ framesOf i c.todo, y.IsRequest

theorem World.Bears.foreign (h : w.Bears i c) : w.Foreign i c := by
  rcases h with h | ⟨-, -, k', es, h, hi⟩
  · refine ⟨⟨[], h.untouched.past, rfl⟩, fun y hy => ?_⟩
    rw [framesOf_spares h.todo] at hy
    cases hy
  · refine ⟨⟨es.reverse, h.past, ?_⟩, hi.requests⟩
    rw [finishedIn_reverse, hi.silent]
    rfl

theorem World.Foreign.opDrop : w.Foreign i (w.opDrop .outside i) := by
  cases hm : w.living? i with
  | none =>
    simp only [World.opDrop, hm]
    exact ⟨⟨[], rfl, rfl⟩, fun y hy => by cases hy⟩
  | some m =>
    simp only [World.opDrop, hm]
    refine ⟨⟨[], rfl, rfl⟩, fun y hy => ?_⟩
    have htodo : framesOf i (World.dropBodies i m.engine.tasks ++
        [.reply .outside "drop_mw" (.bool true)]) = [] := by
      rw [framesOf_append, World.framesOf_dropBodies]
      rfl
    have hnil : y ∈ ([] : List Instr) := htodo ▸ hy
    cases hnil

/-- A step that is not a middleware's own records no outcome in it. -/
theorem Config.foreign_of_step (hk : Config.Knows ⟨x :: rest, w⟩) (hx : x.owner? ≠ some i)
    (hc : Config.step ⟨x :: rest, w⟩ = some c') :
    ∃ next, c' = next.followedBy rest ∧ w.Foreign i next := by
  obtain ⟨next, hn, rfl⟩ := Option.map_eq_some_iff.1 hc
  refine ⟨next, rfl, ?_⟩
  rcases hk.todo with ⟨o, ho⟩ | hxs
  · cases ho
    obtain ⟨w', hs, rfl⟩ := Option.map_eq_some_iff.1 hn
    have hw : World.Untouched i w w' := World.Enacts.GoesOn.spend (fun i => .refl i w) hs i
    have hw' : w'.Knows := (World.Teaches.spend (.start hk.world) hs).knows
    have hf : w'.Foreign i (w'.runOp .outside .empty o) := by
      by_cases ho : o = .drop i
      · subst ho
        exact .opDrop
      · exact (World.Bears.runOp (i := i) hw' .outside .empty o (Or.inr ho)).foreign
    exact ⟨hw.past ▸ hf.silent, hf.requests⟩
  · have hxk : x.Knows w.past := hxs x List.mem_cons_self
    cases ho : x.owner? with
    | some j =>
      have hij : i ≠ j := fun he => hx (he ▸ ho)
      exact (World.Bears.spares (World.Spares.exec hij ho hn)).foreign
    | none =>
      cases hd : x.drops? i with
      | none => exact (World.Bears.exec hk.world hxk ho hd hn).foreign
      | some t =>
        cases x with
        | dropBody turn b =>
          obtain ⟨j, u⟩ := turn
          simp only [Instr.drops?] at hd
          split at hd
          · rename_i hij
            cases hij
            cases hn
            exact ⟨⟨[.bodyDropped u], World.past_record _, rfl⟩, fun y hy => by cases hy⟩
          · cases hd
        | _ => cases hd

theorem Records.todo {k : Core} {u : TaskId} {outcome : Outcome} {G : List Instr} {next : Config}
    (h : Records i k u x outcome G) (hn : x.exec w = some next) :
    framesOf i next.todo = next.todo := by
  have hon : ∀ r : Option Cascade × World,
      framesOf i (World.cascadeOn i r).todo = (World.cascadeOn i r).todo := by
    intro r
    unfold World.cascadeOn
    split
    · rfl
    · exact framesOf_one rfl
  cases h with
  | abort | conclude =>
    cases hn
    exact hon _
  | complete =>
    cases hn
    simp only [World.execCascade]
    split
    · rfl
    · split
      · rfl
      · split
        · rfl
        · exact hon _
  | cancel =>
    cases hn
    exact framesOf_one rfl

namespace Scenario.Visits

variable {s : Scenario}

/-- What a step does to the table of tasks of a middleware. -/
theorem turnover (h : s.Visits c) (hi : c.world.Has i) (hc : c.step = some c') :
    Turnover i (c.view i) (c'.view i) :=
  (Config.moves_of_step h.knows hi hc).turnover (h.sound hi)

/-- An outcome is recorded by the instruction that is carried out, and for its task. -/
theorem recorder (h : s.Visits c) (hi : c.world.Has i) (hc : c.step = some c') {es : List Event}
    (hp : c'.world.past i = es ++ c.world.past i) {u : TaskId} {outcome : Outcome}
    (hu : .taskFinished u outcome ∈ es) :
    ∃ x rest G q, c.todo = x :: rest ∧ Records i (c.world.core i) u x outcome G ∧
      c'.todo = G ++ rest ∧ (c.world.core i).posture u = some q ∧
      (c'.world.core i).posture = ((c.world.core i).bury u).posture := by
  have hfin : u ∈ finishedIn es := mem_finishedIn.2 ⟨outcome, hu⟩
  obtain ⟨todo, w⟩ := c
  cases todo with
  | nil => cases hc
  | cons x rest =>
    by_cases hx : x.owner? = some i
    · obtain ⟨next, hn, rfl⟩ := Option.map_eq_some_iff.1 hc
      cases h.turnover hi hc with
      | evolves _ past silent =>
        rw [List.append_cancel_right (hp.symm.trans past), silent] at hfin
        cases hfin
      | dies _ past =>
        rw [List.append_cancel_right (hp.symm.trans past : _ = [] ++ _)] at hfin
        cases hfin
      | @records y F G u' q outcome' es' _ frames frames' head here past silent posture =>
        have hsame : u' = u ∧ outcome' = outcome := by
          have hes := List.append_cancel_right (hp.symm.trans (past.trans (List.append_cons ..)))
          rw [hes] at hu
          rcases List.mem_append.1 hu with hu | hu
          · have := mem_finishedIn.2 ⟨_, hu⟩
            rw [silent] at this
            cases this
          · cases List.mem_singleton.1 hu
            exact ⟨rfl, rfl⟩
        obtain ⟨rfl, rfl⟩ := hsame
        have hF : framesOf i (x :: rest) = x :: framesOf i rest := by simp [hx]
        have hyF : x :: framesOf i rest = y :: F := hF.symm.trans frames
        cases hyF
        refine ⟨x, rest, G, q, rfl, head, ?_, here, posture⟩
        have hG : framesOf i (next.todo ++ rest) = G ++ framesOf i rest := frames'
        rw [framesOf_append, head.todo hn] at hG
        rw [← List.append_cancel_right hG]
        rfl
    · obtain ⟨next, rfl, ⟨es', hp', hes'⟩, -⟩ := Config.foreign_of_step h.knows hx hc
      rw [List.append_cancel_right (hp.symm.trans hp'), hes'] at hfin
      cases hfin

end Scenario.Visits

end

end SagaMachine
