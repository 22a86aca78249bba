import SagaMachine.Proofs.Dialogue
import SagaMachine.Proofs.Soundness

/-!
# Where a dialogue stands in an engine

At every point of a run the place of the body of a task, what the task is parked on and what
steps of it are due say where its dialogue stands (`Voiced`): the body is in one place only,
every effect that the task asked for and that is still pending is the one that was asked for
last, and a step that is due carries the answer to it. This module has the invariant, and what
becomes of a dialogue that a move does not concern (`Voiced.keep`).
-/

namespace SagaMachine

/-! ## Steps that are due -/

instance Reaction.decidableSteps (t : TaskId) : (r : Reaction) → Decidable (r.Steps t)
  | .start u => inferInstanceAs (Decidable (u = t))
  | .resume u _ => inferInstanceAs (Decidable (u = t))
  | .settle .. => inferInstanceAs (Decidable False)

/-- The reaction that a frame performs. -/
def Instr.reaction? : Instr → Option Reaction
  | .perform _ (.reaction r) => some r
  | _ => none

/-- The steps of a task that are to come, the next one first. -/
def dueSteps (k : Core) (F : List Instr) (t : TaskId) : List Reaction :=
  (F.filterMap Instr.reaction? ++ k.agenda.fresh ++ k.agenda.stack).filter (·.Steps t)

/-- Reactions that are no steps. -/
def Stepless (rs : List Reaction) : Prop := ∀ r ∈ rs, ∀ t, ¬ r.Steps t

theorem Settling.stepless {past : List Event} {rs : List Reaction} (h : Settling past rs) :
    Stepless rs := by
  intro r hr t
  obtain ⟨x, signal, rfl, -⟩ := h r hr
  exact id

theorem Stepless.filter {rs : List Reaction} (h : Stepless rs) (t : TaskId) :
    rs.filter (·.Steps t) = [] := by
  rw [List.filter_eq_nil_iff]
  intro r hr
  simpa using h r hr t

section

variable {k k' : Core} {F F' G : List Instr} {t : TaskId}

theorem dueSteps_congr {rs : List Reaction}
    (hF : F'.filterMap Instr.reaction? = F.filterMap Instr.reaction?)
    (hs : k'.agenda.stack = k.agenda.stack) (hf : k'.agenda.fresh = k.agenda.fresh ++ rs)
    (hrs : Stepless rs) : dueSteps k' F' t = dueSteps k F t := by
  unfold dueSteps
  rw [hF, hs, hf]
  simp [hrs.filter t]

theorem dueSteps_push {r : Reaction} (hr : r.Steps t)
    (hF : F'.filterMap Instr.reaction? = F.filterMap Instr.reaction?)
    (hs : k'.agenda.stack = k.agenda.stack) (hf : k'.agenda.fresh = k.agenda.fresh ++ [r])
    (h : dueSteps k F t = []) : dueSteps k' F' t = [r] := by
  unfold dueSteps at h ⊢
  rw [hF, hs, hf]
  simp only [List.filter_append, List.append_eq_nil_iff] at h ⊢
  obtain ⟨⟨h1, h2⟩, h3⟩ := h
  simp [h1, h2, h3, hr]

theorem dueSteps_perform {i : MiddlewareId} {r : Reaction} (hr : r.Steps t)
    (hG : G.filterMap Instr.reaction? = [])
    (ha : k'.agenda = k.agenda) :
    dueSteps k (.perform i (.reaction r) :: F) t = r :: dueSteps k' (G ++ F) t := by
  unfold dueSteps
  rw [ha, List.filterMap_append, hG]
  simp [Instr.reaction?, hr]

end

/-! ## The invariant -/

/-- What the dialogue must be for a frame of the step of its task. -/
def Instr.Voices (ph : Phase) : Instr → Prop
  | .poll _ _ a =>
    (ph = .silent ∧ a = none) ∨ ∃ x signal, ph = .answered x signal ∧ opening (some signal) = some a
  | .advance .. | .polled .. | .trigger _ _ [] _ | .leave _ _ (.finished _) => ph = .polled
  | .answer _ _ [] x _ _ | .cancelDone _ _ [] x => ph = .asking x
  | .begun _ _ [] (.immediate signal) | .leave _ _ (.yielded signal) =>
    ∃ x, ph = .answered x signal
  | .leave _ _ .ended => ∃ x, ph = .answered x .ended
  | _ => True

/-- What the dialogue of a task is while its body is at rest, and which steps are due. -/
structure Resting (t : TaskId) (ph : Phase) (pending : Option EffectId) (due : List Reaction) :
    Prop where
  aside : pending = none → (ph = .silent ∧ due = [.start t]) ∨
    ∃ x signal, ph = .answered x signal ∧ due = [.resume t signal]
  parked : ∀ {x}, pending = some x → ph = .asking x ∧ due = []

/--
How the dialogue of task `t` fits to the engine: what `t` asked for and is still pending, and
where its body is — with the task, in a frame of its step, about to be dropped, or nowhere.
-/
structure Voiced (i : MiddlewareId) (t : TaskId) (d : Talk) (k : Core) (F : List Instr)
    (D : List TaskId) : Prop where
  count : ∀ {x}, x ∈ d.asked → x < k.nextEffect
  roots : ∀ {x w}, k.waits.get? x = some w → (x ∈ d.asked ↔ w.task = t ∧ w.link = .task)
  reserved : ∀ y ∈ F, ∀ {x}, y.reserved? = some x →
    (x ∈ d.asked ↔ y.turn? = some t ∧ y.nests = [])
  pending : ∀ {x w}, k.waits.get? x = some w → x ∈ d.asked → d.phase = .asking x
  body : ∀ {p}, k.posture t = some p → p.hasBody = true → t ∉ D ∧ ¬ d.phase.IsClosed
  rest : ∀ {p}, k.posture t = some p → p.hasBody = true → p.status.isTerminal = false →
    Resting t d.phase p.pending (dueSteps k F t)
  turn : ∀ y ∈ F, y.turn? = some t →
    t ∉ D ∧ ¬ d.phase.IsClosed ∧ dueSteps k F t = [] ∧ y.Voices d.phase
  drop : t ∈ D → ¬ d.phase.IsClosed ∧ (d.phase.IsFinal ∨ k.Doomed t) ∧ D.count t = 1
  torn : d.phase = .torn → k.Doomed t
  unborn : k.nextTask ≤ t → d = {} ∧ t ∉ D ∧ dueSteps k F t = []
  somewhere : ¬ d.phase.IsClosed → d.phase ≠ .silent →
    (∃ p, k.posture t = some p ∧ p.hasBody = true) ∨ (∃ y ∈ F, y.turn? = some t) ∨ t ∈ D
  halted : ∀ v, k.halted ≠ some (.done v)

/-- A move that does not carry on the dialogue of a task, though it may tear down its body. -/
structure Keeps (t : TaskId) (d : Talk) (k : Core) (F : List Instr) (k' : Core) (F' : List Instr)
    (D' : List TaskId) : Prop where
  count : k.nextEffect ≤ k'.nextEffect
  waits : ∀ {x w}, k'.waits.get? x = some w →
    (∃ w', k.waits.get? x = some w' ∧ w'.task = w.task ∧ w'.link = w.link) ∨
      x ∉ d.asked ∧ ¬ (w.task = t ∧ w.link = .task)
  reserved : ∀ y ∈ F', ∀ {x}, y.reserved? = some x → y ∈ F ∨ x ∉ d.asked ∧ y.turn? ≠ some t
  body : ∀ {p'}, k'.posture t = some p' → p'.hasBody = true → ∃ p, k.posture t = some p ∧
    p.hasBody = true ∧ p'.pending = p.pending ∧
    (p'.status.isTerminal = false → p.status.isTerminal = false ∧ dueSteps k' F' t = dueSteps k F t)
  turn : ∀ y ∈ F', y.turn? = some t → y ∈ F ∧ dueSteps k' F' t = dueSteps k F t
  drop : t ∈ D' → (∃ p, k.posture t = some p ∧ p.hasBody = true) ∧ k'.Doomed t ∧ D'.count t = 1 ∧
    ∀ p', k'.posture t = some p' → p'.hasBody = false
  alone : t ∈ D' → t < k.nextTask ∧ ∀ y ∈ F', y.turn? ≠ some t
  doomed : k.Doomed t → k'.Doomed t
  unborn : k'.nextTask ≤ t → k.nextTask ≤ t ∧ dueSteps k' F' t = dueSteps k F t
  somewhere : ∀ {p}, k.posture t = some p → p.hasBody = true →
    (∃ p', k'.posture t = some p' ∧ p'.hasBody = true) ∨ t ∈ D'
  frames : ∀ y ∈ F, y.turn? = some t → y ∈ F'
  halted : ∀ v, k'.halted ≠ some (.done v)

section

variable {i : MiddlewareId} {k k' : Core} {F F' : List Instr} {D D' : List TaskId} {t : TaskId}
  {d : Talk}

theorem Voiced.keep (h : Voiced i t d k F D) (hk : Keeps t d k F k' F' D') :
    Voiced i t d k' F' (D' ++ D) where
  count hx := Nat.lt_of_lt_of_le (h.count hx) hk.count
  roots hx := by
    rcases hk.waits hx with ⟨w', hw', ht, hl⟩ | ⟨h1, h2⟩
    · rw [h.roots hw', ht, hl]
    · exact ⟨fun h => absurd h h1, fun h => absurd h h2⟩
  reserved y hy x hx := by
    rcases hk.reserved y hy hx with hy | ⟨h1, h2⟩
    · exact h.reserved y hy hx
    · exact ⟨fun h => absurd h h1, fun h => absurd h.1 h2⟩
  pending hx hm := by
    rcases hk.waits hx with ⟨w', hw', -⟩ | ⟨h1, -⟩
    · exact h.pending hw' hm
    · exact absurd hm h1
  body hp hb := by
    obtain ⟨p, hq, hqb, -⟩ := hk.body hp hb
    obtain ⟨h1, h2⟩ := h.body hq hqb
    refine ⟨fun hm => ?_, h2⟩
    rcases List.mem_append.1 hm with hm | hm
    · rw [(hk.drop hm).2.2.2 _ hp] at hb
      cases hb
    · exact h1 hm
  rest hp hb hl := by
    obtain ⟨p, hq, hqb, hpend, hlive⟩ := hk.body hp hb
    obtain ⟨hl, hdue⟩ := hlive hl
    rw [hpend, hdue]
    exact h.rest hq hqb hl
  turn y hy ht := by
    obtain ⟨hyF, hdue⟩ := hk.turn y hy ht
    obtain ⟨h1, h2, h3, h4⟩ := h.turn y hyF ht
    refine ⟨fun hm => ?_, h2, hdue.trans h3, h4⟩
    rcases List.mem_append.1 hm with hm | hm
    · exact (hk.alone hm).2 y hy ht
    · exact h1 hm
  drop hm := by
    rcases List.mem_append.1 hm with hm | hm
    · obtain ⟨⟨p, hp, hb⟩, hdoom, hcount, -⟩ := hk.drop hm
      obtain ⟨h1, h2⟩ := h.body hp hb
      refine ⟨h2, Or.inr hdoom, ?_⟩
      rw [List.count_append, hcount, List.count_eq_zero_of_not_mem h1]
    · obtain ⟨h1, h2, h3⟩ := h.drop hm
      refine ⟨h1, h2.imp id hk.doomed, ?_⟩
      have hnot : t ∉ D' := by
        intro hm'
        obtain ⟨⟨p, hp, hb⟩, -⟩ := hk.drop hm'
        exact (h.body hp hb).1 hm
      rw [List.count_append, h3, List.count_eq_zero_of_not_mem hnot]
  torn ht := hk.doomed (h.torn ht)
  unborn hn := by
    obtain ⟨h1, h2⟩ := hk.unborn hn
    obtain ⟨h3, h4, h5⟩ := h.unborn h1
    refine ⟨h3, fun hm => ?_, h2.trans h5⟩
    rcases List.mem_append.1 hm with hm | hm
    · exact Nat.not_lt_of_le h1 (hk.alone hm).1
    · exact h4 hm
  somewhere hc hn := by
    rcases h.somewhere hc hn with ⟨p, hp, hb⟩ | ⟨y, hy, ht⟩ | hm
    · rcases hk.somewhere hp hb with h | h
      · exact Or.inl h
      · exact Or.inr (Or.inr (List.mem_append_left _ h))
    · exact Or.inr (Or.inl ⟨y, hk.frames y hy ht, ht⟩)
    · exact Or.inr (Or.inr (List.mem_append_right _ hm))
  halted := hk.halted

end

/-! ## Moves that a dialogue does not take part in -/

/--
The engine goes on, but not with the dialogue of task `t`: no step of `t` becomes due, and `t`
does not get its body back.
-/
structure Core.Eases (t : TaskId) (k k' : Core) : Prop where
  count : k.nextEffect ≤ k'.nextEffect
  waits : ∀ {x w}, k'.waits.get? x = some w →
    ∃ w', k.waits.get? x = some w' ∧ w'.task = w.task ∧ w'.link = w.link
  stack : k'.agenda.stack = k.agenda.stack
  fresh : ∃ rs, k'.agenda.fresh = k.agenda.fresh ++ rs ∧ ∀ r ∈ rs, ¬ r.Steps t
  number : k.nextTask ≤ k'.nextTask
  born : t < k'.nextTask → t < k.nextTask
  body : ∀ {p'}, k'.posture t = some p' → p'.hasBody = true → ∃ p, k.posture t = some p ∧
    p.hasBody = true ∧ p'.pending = p.pending ∧
      (p'.status.isTerminal = false → p.status.isTerminal = false)
  doomed : k.Doomed t → k'.Doomed t
  halted : ∀ v, k'.halted = some (.done v) → k.halted = some (.done v)

/-- The task has its body at rest. -/
def Core.HasBody (k : Core) (t : TaskId) : Prop := ∃ p, k.posture t = some p ∧ p.hasBody = true

/-- A change of tasks that leaves bodies where they are. -/
theorem Core.HasBody.alter {k : Core} {t u : TaskId} (h : k.HasBody t) {f : Posture → Posture}
    (hf : ∀ p, (f p).hasBody = p.hasBody) : (k.alter u f).HasBody t := by
  obtain ⟨p, hp, hb⟩ := h
  by_cases hut : t = u
  · subst hut
    exact ⟨f p, by rw [posture_alter, if_pos rfl, hp, Option.map_some], (hf p).trans hb⟩
  · exact ⟨p, by rw [posture_alter, if_neg hut, hp], hb⟩

namespace Core.Eases

variable {k k₁ k' : Core} {t u : TaskId}

theorem refl (t : TaskId) (k : Core) : Eases t k k where
  count := Nat.le_refl _
  waits h := ⟨_, h, rfl, rfl⟩
  stack := rfl
  fresh := ⟨[], by simp, fun r hr => by cases hr⟩
  number := Nat.le_refl _
  born := id
  body hp hb := ⟨_, hp, hb, rfl, id⟩
  doomed := id
  halted _ := id

theorem trans (h : Eases t k k₁) (h' : Eases t k₁ k') : Eases t k k' where
  count := Nat.le_trans h.count h'.count
  waits hx := by
    obtain ⟨w₁, h₁, ht₁, hl₁⟩ := h'.waits hx
    obtain ⟨w₀, h₀, ht₀, hl₀⟩ := h.waits h₁
    exact ⟨w₀, h₀, ht₀.trans ht₁, hl₀.trans hl₁⟩
  stack := h'.stack.trans h.stack
  fresh := by
    obtain ⟨rs, hrs, hs⟩ := h.fresh
    obtain ⟨rs', hrs', hs'⟩ := h'.fresh
    refine ⟨rs ++ rs', by rw [hrs', hrs, List.append_assoc], fun r hr => ?_⟩
    exact (List.mem_append.1 hr).elim (hs r) (hs' r)
  number := Nat.le_trans h.number h'.number
  born ht := h.born (h'.born ht)
  body hp hb := by
    obtain ⟨p₁, hp₁, hb₁, hpend₁, hl₁⟩ := h'.body hp hb
    obtain ⟨p₀, hp₀, hb₀, hpend₀, hl₀⟩ := h.body hp₁ hb₁
    exact ⟨p₀, hp₀, hb₀, hpend₁.trans hpend₀, fun hl => hl₀ (hl₁ hl)⟩
  doomed ht := h'.doomed (h.doomed ht)
  halted v hv := h.halted v (h'.halted v hv)

/-- The driver and the marks of the step under way do not matter. -/
theorem congr (h : Eases t k k₁) (hp : k'.posture = k₁.posture) (hw : k'.waits = k₁.waits)
    (ha : k'.agenda = k₁.agenda) (hn : k'.nextTask = k₁.nextTask)
    (he : k'.nextEffect = k₁.nextEffect)
    (hh : ∀ v, k'.halted = some (.done v) → k₁.halted = some (.done v)) : Eases t k k' where
  count := he ▸ h.count
  waits hx := h.waits (hw ▸ hx)
  stack := by rw [ha, h.stack]
  fresh := ha ▸ h.fresh
  number := hn ▸ h.number
  born ht := h.born (hn ▸ ht)
  body hq := h.body (hp ▸ hq)
  doomed ht := by
    have := h.doomed ht
    exact ⟨hn ▸ this.1, fun p hq => this.2 p (hp ▸ hq)⟩
  halted v hv := h.halted v (hh v hv)

/-- Reactions are scheduled that are no steps of the task. -/
theorem schedule (h : Eases t k k₁) {rs : List Reaction} (hrs : ∀ r ∈ rs, ¬ r.Steps t) :
    Eases t k (k₁.schedule rs) :=
  h.trans
    { count := Nat.le_refl _
      waits := fun hx => ⟨_, hx, rfl, rfl⟩
      stack := rfl
      fresh := ⟨rs, rfl, hrs⟩
      number := Nat.le_refl _
      born := id
      body := fun hp hb => ⟨_, hp, hb, rfl, id⟩
      doomed := id
      halted := fun _ => id }

theorem settling (h : Eases t k k₁) {past : List Event} {rs : List Reaction}
    (hs : Settling past rs) : Eases t k (k₁.schedule rs) :=
  h.schedule fun r hr => hs.stepless r hr t

/-- Some effects are not pending any more. -/
theorem waitsFrom (h : Eases t k k₁) {waits : Waits} (hw : ∀ {x w}, waits.get? x = some w →
    ∃ w', k₁.waits.get? x = some w' ∧ w'.task = w.task ∧ w'.link = w.link) :
    Eases t k { k₁ with waits } :=
  h.trans
    { count := Nat.le_refl _
      waits := hw
      stack := rfl
      fresh := ⟨[], by simp, fun r hr => by cases hr⟩
      number := Nat.le_refl _
      born := id
      body := fun hp hb => ⟨_, hp, hb, rfl, id⟩
      doomed := id
      halted := fun _ => id }

theorem withdraw (h : Eases t k k₁) (xs : List EffectId) : Eases t k (k₁.withdraw xs) :=
  h.waitsFrom fun hx => ⟨_, Waits.get?_of_get?_detach hx, rfl, rfl⟩

/-- A task changes; it does not get its body back, and does not come back to life. -/
theorem alter (h : Eases t k k₁) {f : Posture → Posture} (hf : u = t → ∀ p, k₁.posture t = some p →
    ((f p).hasBody = true → p.hasBody = true ∧ (f p).pending = p.pending) ∧
      ((f p).status.isTerminal = false → p.status.isTerminal = false)) :
    Eases t k (k₁.alter u f) := by
  refine h.trans ⟨Nat.le_refl _, fun hx => ⟨_, hx, rfl, rfl⟩, rfl, ⟨[], by simp [Core.alter], ?_⟩,
    Nat.le_refl _, id, fun {p'} hp hb => ?_, fun hd => ⟨hd.1, fun p' hp => ?_⟩, fun _ => id⟩
  · exact fun r hr => by cases hr
  · rw [posture_alter] at hp
    split at hp
    · rename_i htu
      subst htu
      obtain ⟨p, hq, rfl⟩ := Option.map_eq_some_iff.1 hp
      obtain ⟨hbody, hlive⟩ := hf rfl p hq
      exact ⟨p, hq, (hbody hb).1, (hbody hb).2, hlive⟩
    · exact ⟨p', hp, hb, rfl, id⟩
  · rw [posture_alter] at hp
    split at hp
    · rename_i htu
      subst htu
      obtain ⟨p, hq, rfl⟩ := Option.map_eq_some_iff.1 hp
      cases hs : (f p).status.isTerminal with
      | true => rfl
      | false => exact absurd (hd.2 p hq) (by simp [(hf rfl p hq).2 hs])
    · exact hd.2 p' hp

/-- A task leaves the table. -/
theorem bury (h : Eases t k k₁) (u : TaskId) : Eases t k (k₁.bury u) := by
  have hp : ∀ {p'}, (k₁.bury u).posture t = some p' → ∃ p, k₁.posture t = some p ∧
      p'.hasBody = p.hasBody ∧ p'.pending = p.pending ∧ p'.status = p.status := by
    intro p' hp
    rw [posture_bury] at hp
    split at hp
    · cases hp
    · obtain ⟨p, hq, rfl⟩ := Option.map_eq_some_iff.1 hp
      refine ⟨p, hq, ?_, ?_, k₁.shed_status u t p⟩ <;> rw [k₁.shed_eq]
  have hsame : (k₁.bury u).waits = k₁.waits ∧ (k₁.bury u).agenda = k₁.agenda ∧
      (k₁.bury u).nextEffect = k₁.nextEffect ∧ (k₁.bury u).halted = k₁.halted := by
    rw [k₁.bury_eq]
    exact ⟨rfl, rfl, rfl, rfl⟩
  obtain ⟨hw, ha, he, hh⟩ := hsame
  refine h.trans ⟨Nat.le_of_eq he.symm, fun hx => ⟨_, hw ▸ hx, rfl, rfl⟩, by rw [ha],
    ⟨[], by simp [ha], fun r hr => by cases hr⟩, Nat.le_of_eq (k₁.nextTask_bury u).symm, ?_,
    fun hp' hb => ?_, (k₁.ages_bury u).doomed, fun v hv => hh ▸ hv⟩
  · exact fun ht => k₁.nextTask_bury u ▸ ht
  · obtain ⟨p, hq, hb', hpend, hs⟩ := hp hp'
    exact ⟨p, hq, hb' ▸ hb, hpend, fun hl => hs ▸ hl⟩

/-- Tasks become terminal. -/
theorem cancelAll (h : Eases t k k₁) (order : List TaskId) : Eases t k (k₁.cancelAll order) := by
  unfold Core.cancelAll
  induction order generalizing k₁ with
  | nil => exact h
  | cons u order ih =>
    refine ih (h.alter fun _ p _ => ⟨fun hb => ⟨hb, rfl⟩, fun hl => ?_⟩)
    cases hl

/-- Another task is created, and its start is due. -/
theorem create {parent : Option TaskId} (detached : Bool) (hpar : parent ≠ some k.nextTask)
    (ht : t ≠ k.nextTask) :
    Eases t k ((k.create parent detached).schedule [.start k.nextTask]) := by
  have hpost := k.posture_create detached hpar t
  rw [if_neg ht] at hpost
  have hnext := k.nextTask_create parent detached
  have hsame : (k.create parent detached).waits = k.waits ∧
      (k.create parent detached).agenda = k.agenda ∧
      (k.create parent detached).nextEffect = k.nextEffect ∧
      (k.create parent detached).halted = k.halted := by
    rw [k.create_eq]
    exact ⟨rfl, rfl, rfl, rfl⟩
  obtain ⟨hw, ha, he, hh⟩ := hsame
  have hcreate : Eases t k (k.create parent detached) :=
    { count := Nat.le_of_eq he.symm
      waits := fun hx => ⟨_, hw ▸ hx, rfl, rfl⟩
      stack := by rw [ha]
      fresh := ⟨[], by simp [ha], fun r hr => by cases hr⟩
      number := hnext ▸ Nat.le_succ _
      born := fun h => by
        rw [hnext] at h
        exact Nat.lt_of_le_of_ne (Nat.le_of_lt_succ h) ht
      body := fun hp hb => by
        rw [hpost] at hp
        obtain ⟨p, hq, rfl⟩ := Option.map_eq_some_iff.1 hp
        rw [k.welcome_eq] at hb ⊢
        exact ⟨p, hq, hb, rfl, id⟩
      doomed := fun hd => by
        refine ⟨Nat.lt_of_lt_of_le hd.1 (hnext ▸ Nat.le_succ _), fun p' hp => ?_⟩
        rw [hpost] at hp
        obtain ⟨p, hq, rfl⟩ := Option.map_eq_some_iff.1 hp
        rw [k.welcome_eq]
        exact hd.2 p hq
      halted := fun v hv => hh ▸ hv }
  refine hcreate.schedule fun r hr => ?_
  rw [List.mem_singleton.1 hr]
  exact fun h => ht h.symm

end Core.Eases

section

variable {i : MiddlewareId} {k k' : Core} {F G : List Instr} {D : List TaskId} {t : TaskId}
  {d : Talk}

/-- A frame that is no part of the dialogue of a task. -/
structure Instr.Aside (t : TaskId) (x : Instr) : Prop where
  turn : x.turn? ≠ some t
  reaction : ∀ r, x.reaction? = some r → ¬ r.Steps t

/-- A frame that is no part of a step, and carries out no reaction. -/
theorem Instr.Aside.of_none {y : Instr} (h : y.turn? = none) (hr : y.reaction? = none) (t : TaskId) :
    y.Aside t where
  turn ht := by
    rw [h] at ht
    cases ht
  reaction r hr' := by
    rw [hr] at hr'
    cases hr'

/-- Only within a step a number is kept. -/
theorem Instr.reserved?_of_turn? {y : Instr} (h : y.turn? = none) : y.reserved? = none := by
  cases y with
  | answer | cancelDone => cases h
  | _ => rfl

theorem dueSteps_eases (he : Core.Eases t k k') (F : List Instr) :
    dueSteps k' F t = dueSteps k F t := by
  obtain ⟨rs, hf, hrs⟩ := he.fresh
  have hrs' : rs.filter (·.Steps t) = [] := by
    rw [List.filter_eq_nil_iff]
    exact fun r hr => by simpa using hrs r hr
  simp [dueSteps, hf, he.stack, hrs']

theorem dueSteps_aside (hG : ∀ y ∈ G, y.Aside t) : dueSteps k (G ++ F) t = dueSteps k F t := by
  have hnone : (G.filterMap Instr.reaction?).filter (·.Steps t) = [] := by
    rw [List.filter_eq_nil_iff]
    intro r hr
    obtain ⟨y, hy, hr⟩ := List.mem_filterMap.1 hr
    simpa using (hG y hy).reaction r hr
  simp only [dueSteps, List.filterMap_append, List.filter_append, hnone, List.nil_append]

/-- The engine goes on, and the body of the task stays where it is. -/
theorem Voiced.ease (h : Voiced i t d k F D) (he : Core.Eases t k k')
    (hb : k.HasBody t → k'.HasBody t) :
    Voiced i t d k' F D := by
  have hdue := dueSteps_eases he F
  have hk : Keeps t d k F k' F [] :=
    { count := he.count
      waits := fun hy => Or.inl (he.waits hy)
      reserved := fun y hy z hz => Or.inl hy
      body := fun hp hb => by
        obtain ⟨p, hp, hb, hpend, hl⟩ := he.body hp hb
        exact ⟨p, hp, hb, hpend, fun h => ⟨hl h, hdue⟩⟩
      turn := fun y hy ht => ⟨hy, hdue⟩
      drop := fun hm => by cases hm
      alone := fun hm => by cases hm
      doomed := he.doomed
      unborn := fun hn => ⟨Nat.le_trans he.number hn, hdue⟩
      somewhere := fun hp hb' => Or.inl (hb ⟨_, hp, hb'⟩)
      frames := fun y hy _ => hy
      halted := fun v hv => h.halted v (he.halted v hv) }
  exact h.keep hk

/-- The engine goes on, and the body of the task is torn down. -/
theorem Voiced.tear (h : Voiced i t d k F D) (he : Core.Eases t k k') (hb : k.HasBody t)
    (hb' : ∀ p', k'.posture t = some p' → p'.hasBody = false) (hdoom : k'.Doomed t)
    (hF : ∀ y ∈ F, y.turn? ≠ some t) : Voiced i t d k' F ([t] ++ D) := by
  have hdue := dueSteps_eases he F
  have hk : Keeps t d k F k' F [t] :=
    { count := he.count
      waits := fun hy => Or.inl (he.waits hy)
      reserved := fun y hy z hz => Or.inl hy
      body := fun hp hb => by
        rw [hb' _ hp] at hb
        cases hb
      turn := fun y hy ht => absurd ht (hF y hy)
      drop := fun hm => by
        cases List.mem_singleton.1 hm
        exact ⟨hb, hdoom, by simp, hb'⟩
      alone := fun hm => by
        cases List.mem_singleton.1 hm
        exact ⟨he.born hdoom.1, hF⟩
      doomed := he.doomed
      unborn := fun hn => ⟨Nat.le_trans he.number hn, hdue⟩
      somewhere := fun _ _ => Or.inr (List.mem_singleton.2 rfl)
      frames := fun y hy _ => hy
      halted := fun v hv => h.halted v (he.halted v hv) }
  exact h.keep hk

/-- Frames that are no part of the dialogue take the place of others. -/
theorem Voiced.reframe {X : List Instr} (h : Voiced i t d k (X ++ F) D) (hX : ∀ y ∈ X, y.Aside t)
    (hG : ∀ y ∈ G, y.Aside t ∧ y.reserved? = none) : Voiced i t d k (G ++ F) D := by
  have hdue : dueSteps k (G ++ F) t = dueSteps k (X ++ F) t :=
    (dueSteps_aside fun y hy => (hG y hy).1).trans (dueSteps_aside hX).symm
  have hk : Keeps t d k (X ++ F) k (G ++ F) [] :=
    { count := Nat.le_refl _
      waits := fun hx => Or.inl ⟨_, hx, rfl, rfl⟩
      reserved := fun y hy z hz => by
        refine Or.inl (List.mem_append_right _ ((List.mem_append.1 hy).resolve_left fun hm => ?_))
        rw [(hG y hm).2] at hz
        cases hz
      body := fun hp hb => ⟨_, hp, hb, rfl, fun hl => ⟨hl, hdue⟩⟩
      turn := fun y hy ht => ⟨List.mem_append_right _
        ((List.mem_append.1 hy).resolve_left fun hm => (hG y hm).1.turn ht), hdue⟩
      drop := fun hm => by cases hm
      alone := fun hm => by cases hm
      doomed := id
      unborn := fun hn => ⟨hn, hdue⟩
      somewhere := fun hp hb => Or.inl ⟨_, hp, hb⟩
      frames := fun y hy ht => List.mem_append_right _
        ((List.mem_append.1 hy).resolve_left fun hm => (hX y hm).turn ht)
      halted := h.halted }
  exact h.keep hk

end

end SagaMachine
