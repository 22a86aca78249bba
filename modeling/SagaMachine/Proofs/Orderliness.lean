import SagaMachine.Proofs.Invariant

/-!
# Tasks stay in order

Every move keeps the tasks of a middleware in order (`Orderly`). Most moves change no task;
for the others it is enough to say what becomes of the one task that they are about, and
that whatever takes care of the other tasks stays.

Main statements: `Does.orderly`, `Intervenes.orderly`.
-/

namespace SagaMachine

/-! ## What becomes of the tasks that frames rely on -/

/-- Between two cores tasks only grow older: what is over stays over. -/
structure Core.Ages (k k' : Core) : Prop where
  doomed : ∀ {t}, k.Doomed t → k'.Doomed t
  stripped : ∀ {t}, k.Stripped t → k'.Stripped t
  afoot : ∀ {t}, k.Afoot t → k'.Afoot t

namespace Core

variable {k k' k'' : Core} {t : TaskId}

theorem Ages.trans (h : k.Ages k') (h' : k'.Ages k'') : k.Ages k'' :=
  ⟨fun ht => h'.doomed (h.doomed ht), fun ht => h'.stripped (h.stripped ht),
    fun ht => h'.afoot (h.afoot ht)⟩

/-- Every task that was there already is as it was but for its children, or gone. -/
theorem Ages.of_old (hn : k.nextTask ≤ k'.nextTask)
    (h : ∀ {t p'}, t < k.nextTask → k'.posture t = some p' →
      ∃ p, k.posture t = some p ∧ p' = { p with children := p'.children }) :
    k.Ages k' where
  doomed ht := by
    refine ⟨Nat.lt_of_lt_of_le ht.1 hn, fun p' hp => ?_⟩
    obtain ⟨p, hp, hp'⟩ := h ht.1 hp
    rw [hp']
    exact ht.2 p hp
  stripped ht := by
    refine ⟨Nat.lt_of_lt_of_le ht.1 hn, fun p' hp => ?_⟩
    obtain ⟨p, hp, hp'⟩ := h ht.1 hp
    rw [hp']
    exact ht.2 p hp
  afoot ht := by
    refine ⟨Nat.lt_of_lt_of_le ht.1 hn, fun p' hp => ?_⟩
    obtain ⟨p, hp, hp'⟩ := h ht.1 hp
    rw [hp']
    exact ht.2 p hp

/-- A task whose body is at work, and that is not live any more, is terminal. -/
theorem Afoot.doomed (h : k.Afoot t) (hl : ¬ k.Live t) : k.Doomed t := by
  refine ⟨h.1, fun p hp => ?_⟩
  cases hs : p.status.isTerminal with
  | true => rfl
  | false => exact absurd ⟨p, hp, hs⟩ hl

theorem Afoot.stripped (h : k.Afoot t) (hl : ¬ k.Live t) : k.Stripped t :=
  ⟨h.1, fun p hp => ⟨(h.doomed hl).2 p hp, (h.2 p hp).1⟩⟩

theorem Doomed.not_live (h : k.Doomed t) : ¬ k.Live t := by
  rintro ⟨p, hp, hl⟩
  rw [h.2 p hp] at hl
  cases hl

theorem Stripped.doomed (h : k.Stripped t) : k.Doomed t := ⟨h.1, fun p hp => (h.2 p hp).1⟩

/-- A change of a task that leaves what is over as it is. -/
structure Aging (f : Posture → Posture) : Prop where
  terminal : ∀ {p}, p.status.isTerminal = true → (f p).status.isTerminal = true
  body : ∀ {p}, p.hasBody = false → (f p).hasBody = false
  result : ∀ {p}, p.result = none → (f p).result = none
  running : ∀ {p}, (p.status.isTerminal = false → p.status = .running) →
    (f p).status.isTerminal = false → (f p).status = .running

theorem ages_alter (k : Core) (t : TaskId) {f : Posture → Posture} (h : Aging f) :
    k.Ages (k.alter t f) where
  doomed {u} hu := by
    refine ⟨hu.1, fun p hp => ?_⟩
    rw [posture_alter] at hp
    split at hp
    · obtain ⟨q, hq, rfl⟩ := Option.map_eq_some_iff.1 hp
      rename_i hut
      subst hut
      exact h.terminal (hu.2 q hq)
    · exact hu.2 p hp
  stripped {u} hu := by
    refine ⟨hu.1, fun p hp => ?_⟩
    rw [posture_alter] at hp
    split at hp
    · obtain ⟨q, hq, rfl⟩ := Option.map_eq_some_iff.1 hp
      rename_i hut
      subst hut
      exact ⟨h.terminal (hu.2 q hq).1, h.body (hu.2 q hq).2⟩
    · exact hu.2 p hp
  afoot {u} hu := by
    refine ⟨hu.1, fun p hp => ?_⟩
    rw [posture_alter] at hp
    split at hp
    · obtain ⟨q, hq, rfl⟩ := Option.map_eq_some_iff.1 hp
      rename_i hut
      subst hut
      obtain ⟨h1, h2, h3⟩ := hu.2 q hq
      exact ⟨h.body h1, h.result h2, h.running h3⟩
    · exact hu.2 p hp

/-- The end of a task takes it off the children of its parent. -/
def shed (k : Core) (t u : TaskId) (p : Posture) : Posture :=
  match k.posture t with
  | none => p
  | some q =>
    if q.parent = some u ∧ q.detached = false ∧ p.status.isTerminal = false then
      { p with children := p.children.filter (· ≠ t) }
    else p

theorem posture_bury (k : Core) (t u : TaskId) :
    (k.bury t).posture u = if u = t then none else (k.posture u).map (k.shed t u) := by
  unfold bury shed
  cases ht : k.posture t with
  | none =>
    by_cases hu : u = t
    · simp [hu, ht]
    · simp [hu]
  | some q =>
    obtain ⟨parent, detached, children, status, hasBody, pending, result⟩ := q
    have hremove : (k.remove t).posture u =
        if u = t then none else (k.posture u).map fun p => p := by simp
    cases parent with
    | none => simp
    | some v =>
      cases detached with
      | true => simp
      | false =>
        simp only [posture_remove]
        by_cases hv : v = t
        · subst hv
          by_cases hu : u = v
          · simp [hu]
          · have hvu : ¬ v = u := fun h => hu h.symm
            simp [hu, hvu]
        · simp only [hv, if_false]
          cases hva : k.posture v with
          | none =>
            by_cases hu : u = t
            · simp [hu]
            · by_cases huv : u = v
              · simp [huv, hva, hv]
              · have hvu : ¬ v = u := fun h => huv h.symm
                simp [hu, hvu]
          | some above =>
            by_cases hu : u = t
            · subst hu
              have huv : ¬ u = v := fun h => hv h.symm
              simp only [if_true]
              split <;> simp [huv]
            · by_cases huv : u = v
              · subst huv
                cases hterm : above.status.isTerminal <;> simp [hva, hv, hterm]
              · have hvu : ¬ v = u := fun h => huv h.symm
                simp only
                split <;> simp [hu, huv, hvu]

theorem shed_status (k : Core) (t u : TaskId) (p : Posture) : (k.shed t u p).status = p.status := by
  unfold shed
  split
  · rfl
  · split <;> rfl

theorem shed_eq (k : Core) (t u : TaskId) (p : Posture) :
    k.shed t u p = { p with children := (k.shed t u p).children } := by
  unfold shed
  split
  · rfl
  · split <;> rfl

theorem nextTask_bury (k : Core) (t : TaskId) : (k.bury t).nextTask = k.nextTask := by
  rw [bury_eq]

theorem ages_bury (k : Core) (t : TaskId) : k.Ages (k.bury t) := by
  refine .of_old (Nat.le_of_eq (k.nextTask_bury t).symm) ?_
  intro u p' _ h
  rw [posture_bury] at h
  split at h
  · cases h
  · obtain ⟨p, hp, rfl⟩ := Option.map_eq_some_iff.1 h
    exact ⟨p, hp, k.shed_eq t u p⟩

/-- What the creation of a task means for the others: the parent gets a child. -/
def welcome (k : Core) (parent : Option TaskId) (detached : Bool) (u : TaskId) (p : Posture) :
    Posture :=
  if parent = some u ∧ detached = false then { p with children := p.children ++ [k.nextTask] } else p

theorem posture_create (k : Core) {parent : Option TaskId} (detached : Bool)
    (hpar : parent ≠ some k.nextTask) (u : TaskId) :
    (k.create parent detached).posture u =
      if u = k.nextTask then some (.fresh parent detached)
      else (k.posture u).map (k.welcome parent detached u) := by
  have hid : ∀ o : Option Posture, o.map (fun p => p) = o := fun o => by cases o <;> rfl
  unfold create welcome
  cases parent with
  | none => simp [hid]
  | some v =>
    cases detached with
    | true => simp [hid]
    | false =>
      have hv : ¬ v = k.nextTask := fun h => hpar (congrArg some h)
      simp only [posture_alter, posture_add]
      by_cases hu : u = k.nextTask
      · have hne : ¬ u = v := fun h => hv (h.symm.trans hu)
        rw [if_neg hne, if_pos hu, if_pos hu]
      · by_cases huv : u = v
        · subst huv
          simp [hu]
        · have hvu : ¬ v = u := fun h => huv h.symm
          simp [hu, huv, hvu]

theorem welcome_eq (k : Core) (parent : Option TaskId) (detached : Bool) (u : TaskId) (p : Posture) :
    k.welcome parent detached u p =
      { p with children := (k.welcome parent detached u p).children } := by
  unfold welcome
  split <;> rfl

theorem nextTask_create (k : Core) (parent : Option TaskId) (detached : Bool) :
    (k.create parent detached).nextTask = k.nextTask + 1 := by
  rw [create_eq]

theorem posture_cancelAll (k : Core) (order : List TaskId) (u : TaskId) :
    (k.cancelAll order).posture u =
      (k.posture u).map fun p => if u ∈ order then { p with status := .cancelled } else p := by
  unfold cancelAll
  induction order generalizing k with
  | nil => simp
  | cons t order ih =>
    rw [List.foldl_cons, ih, posture_alter]
    by_cases hut : u = t
    · subst hut
      cases k.posture u with
      | none => simp
      | some p => by_cases h : u ∈ order <;> simp [h]
    · simp [hut]

theorem ages_cancelAll (k : Core) (order : List TaskId) : k.Ages (k.cancelAll order) := by
  unfold cancelAll
  induction order generalizing k with
  | nil => exact ⟨id, id, id⟩
  | cons t order ih =>
    refine (k.ages_alter t ⟨?_, ?_, ?_, ?_⟩).trans (ih _)
    · exact fun _ => rfl
    · exact id
    · exact id
    · intro p _ h
      cases h

/-- The parent of a task that ended goes on, if it has to. -/
theorem cascade_of_parent {k : Core} {t u : TaskId} {q p : Posture} (hu : u ≠ t)
    (ht : k.posture t = some q) (hq : q.parent = some u) (hd : q.detached = false)
    (hp : k.posture u = some p) (hl : p.status.isTerminal = false) (outcome : Outcome) :
    (∃ f, k.cascade t outcome = some (.abort u f)) ∨
      (p.result.isSome = true → p.children.filter (· ≠ t) = [] →
        k.cascade t outcome = some (.complete u)) := by
  obtain ⟨parent, detached, children, status, hasBody, pending, result⟩ := q
  cases hq
  cases hd
  have hr : (k.remove t).posture u = some p := by simp [hu, hp]
  cases outcome with
  | aborted f =>
    refine Or.inl ⟨f, ?_⟩
    simp only [cascade, ht, hr, hl, Bool.false_eq_true, if_false]
  | _ =>
    refine Or.inr fun hv hnil => ?_
    simp only [cascade, ht, hr, hl, hv, hnil, Bool.false_eq_true, if_false, List.isEmpty_nil,
      Bool.and_self, if_true]

end Core

/-! ## What takes care of a task -/

/-- The first job of a task that was created, or the next one of a task that stood aside. -/
def Reaction.Steps (t : TaskId) : Reaction → Prop
  | .start u | .resume u _ => u = t
  | .settle .. => False

/-- A frame that no task depends on. -/
structure Instr.IsFree (x : Instr) : Prop where
  finishes : x.finishes = []
  closes : ∀ t, ¬ x.Closes t
  tends : ∀ t, ¬ x.Tends t
  conclude : ∀ turn, x ≠ .conclude turn

/-- The agenda only gets more. -/
structure Core.Grows (k k' : Core) : Prop where
  stack : k'.agenda.stack = k.agenda.stack
  fresh : ∃ rs, k'.agenda.fresh = k.agenda.fresh ++ rs

/-- What a task is parked on stays. -/
def Core.Roots (k k' : Core) (t : TaskId) : Prop :=
  ∀ {p x w}, k.posture t = some p → p.status.isTerminal = false → p.hasBody = true →
    p.pending = some x → k.waits.get? x = some w → w.task = t → w.link = .task →
    ∃ w', k'.waits.get? x = some w' ∧ w'.task = t ∧ w'.link = .task

theorem Core.Roots.of_waits {k k' : Core} {t : TaskId} (h : k'.waits = k.waits) : k.Roots k' t :=
  fun _ _ _ _ hw ht hl => ⟨_, h ▸ hw, ht, hl⟩

/-- Whatever takes care of a task stays. -/
structure Carries (i : MiddlewareId) (k : Core) (F : List Instr) (k' : Core) (F' : List Instr)
    (t : TaskId) : Prop where
  owes : ∀ {p}, k.posture t = some p → p.pending = none → p.hasBody = true →
    p.status.isTerminal = false → ∀ {r : Reaction}, r.Steps t → Owes i k F r → Owes i k' F' r
  roots : k.Roots k' t
  current : k.current = some t → k'.current = some t
  closes : ∀ {p}, k.posture t = some p → p.status.isTerminal = false → p.result = none →
    (∃ x ∈ F, x.Closes t) → ∃ x ∈ F', x.Closes t
  tends : ∀ {p}, k.posture t = some p → p.status.isTerminal = false → p.result ≠ none →
    (∃ x ∈ F, x.Tends t) → ∃ x ∈ F', x.Tends t
  finishes : (∃ x ∈ F, t ∈ x.finishes) → k'.current = some t ∨ ∃ x ∈ F', t ∈ x.finishes

section

variable {i : MiddlewareId} {k k' : Core} {F F' G : List Instr} {x : Instr} {t : TaskId}
  {p : Posture}

/-- The first frame gives way to frames that take care of what it took care of. -/
theorem exists_mem_of_head {P Q : Instr → Prop} (hx : P x → ∃ g ∈ G, Q g) (hF : ∀ y, P y → Q y)
    (h : ∃ y ∈ x :: F, P y) : ∃ y ∈ G ++ F, Q y := by
  obtain ⟨y, hy, hp⟩ := h
  rcases List.mem_cons.1 hy with rfl | hy
  · obtain ⟨g, hg, hq⟩ := hx hp
    exact ⟨g, List.mem_append_left _ hg, hq⟩
  · exact ⟨y, List.mem_append_right _ hy, hF y hp⟩

theorem Standing.carry (h : Standing i k F t p) (hp : k.posture t = some p)
    (hc : Carries i k F k' F' t) (hl : p.status.isTerminal = false) : Standing i k' F' t p := by
  cases h with
  | created hs hb hn hr h => exact .created hs hb hn hr (hc.owes hp hn hb hl rfl h)
  | yielded hs hb hn hr h => exact .yielded hs hb hn hr (hc.owes hp hn hb hl rfl h)
  | parked hs hb hx hr h ht hlink =>
    obtain ⟨w', hw', ht', hl'⟩ := hc.roots hp hl hb hx h ht hlink
    exact .parked hs hb hx hr hw' ht' hl'
  | running hs hb hr h => exact .running hs hb hr (h.imp hc.current (hc.closes hp hl hr))
  | waiting hb hr h =>
    exact .waiting hb hr (h.imp id (hc.tends hp hl fun hn => by rw [hn] at hr; cases hr))

/-- A task whose own state does not change is still in order. -/
theorem InOrder.carry (h : InOrder i k F t p) (hp : k.posture t = some p)
    (hc : Carries i k F k' F' t) (hn : k.nextTask ≤ k'.nextTask)
    (hkids : ∀ {c q}, c ∈ p.children → p.status.isTerminal = false → k.posture c = some q →
      q.parent = some t → q.detached = false →
      ∃ q', k'.posture c = some q' ∧ q'.parent = some t ∧ q'.detached = false) :
    InOrder i k' F' t p where
  number := Nat.lt_of_lt_of_le h.number hn
  standing hl := (h.standing hl).carry hp hc hl
  terminal ht := by
    rcases h.terminal ht with h | h
    · exact Or.inl (hc.current h)
    · exact hc.finishes h
  children hl c hcm := by
    obtain ⟨q, hq, hqp, hqd⟩ := h.children hl c hcm
    exact hkids hcm hl hq hqp hqd

/-- A frame that no task depends on gives way. -/
theorem Carries.of_free (hx : x.IsFree) (hcur : k.current = some t → k'.current = some t)
    (howes : ∀ {p}, k.posture t = some p → p.pending = none → p.hasBody = true →
      p.status.isTerminal = false → ∀ {r : Reaction}, r.Steps t → Owes i k (x :: F) r →
      Owes i k' (G ++ F) r)
    (hroots : k.Roots k' t) : Carries i k (x :: F) k' (G ++ F) t where
  owes := howes
  roots := hroots
  current := hcur
  closes _ _ _ h := exists_mem_of_head (fun hc => absurd hc (hx.closes t)) (fun _ => id) h
  tends _ _ _ h := exists_mem_of_head (fun hc => absurd hc (hx.tends t)) (fun _ => id) h
  finishes h := by
    refine Or.inr (exists_mem_of_head (fun hc => ?_) (fun _ => id) h)
    rw [hx.finishes] at hc
    cases hc

/-- Nothing changes about the tasks. -/
structure Core.Unmoved (k k' : Core) : Prop where
  posture : k'.posture = k.posture
  nextTask : k'.nextTask = k.nextTask
  current : k'.current = k.current
  halted : k'.halted = k.halted

theorem Core.Unmoved.relies (h : k.Unmoved k') (hx : x.Relies k) : x.Relies k' := by
  have hlive : ∀ t, k'.Live t ↔ k.Live t := fun t => by simp only [Core.Live, h.posture]
  have hdoomed : ∀ t, k.Doomed t → k'.Doomed t := fun t => by
    simp only [Core.Doomed, h.posture, h.nextTask, imp_self]
  have hstripped : ∀ t, k.Stripped t → k'.Stripped t := fun t => by
    simp only [Core.Stripped, h.posture, h.nextTask, imp_self]
  have hafoot : ∀ t, k.Afoot t → k'.Afoot t := fun t => by
    simp only [Core.Afoot, h.posture, h.nextTask, imp_self]
  cases x with
  | begun turn b nests start =>
    cases start with
    | halt => exact fun hl => hx ((hlive _).1 hl)
    | _ => trivial
  | leave turn b exit =>
    cases exit with
    | halted => exact fun hl => hx ((hlive _).1 hl)
    | _ => exact (hlive _).2 hx
  | returned => exact hafoot _ hx
  | abortDone | conclude => exact hstripped _ hx
  | cancelEach => exact fun t ht => hdoomed t (hx t ht)
  | cancelOne => exact ⟨hstripped _ hx.1, fun t ht => hdoomed t (hx.2 t ht)⟩
  | _ => trivial

/-- A move that changes no task. -/
theorem Orderly.carried (h : Orderly i k (x :: F)) (hp : k'.posture = k.posture)
    (hn : k'.nextTask = k.nextTask)
    (hcarry : ∀ {t p}, k.posture t = some p → Carries i k (x :: F) k' (G ++ F) t)
    (hframes : ∀ y ∈ G ++ F, y.Relies k') (hcur : k'.current = k.current)
    (hhalted : k'.halted ≠ none →
      (∃ u, k'.current = some u ∧ ¬ k'.Live u) ∨ ∃ turn, .conclude turn ∈ G ++ F) :
    Orderly i k' (G ++ F) where
  tasks {t p} ht := by
    rw [hp] at ht
    refine (h.tasks ht).carry ht (hcarry ht) (Nat.le_of_eq hn.symm) ?_
    intro c q _ _ hq hqp hqd
    exact ⟨q, by rw [hp, hq], hqp, hqd⟩
  frames := hframes
  driver {t} hc := by
    obtain ⟨h1, h2⟩ := h.driver (hcur.symm.trans hc)
    simp only [Core.Afoot, hp, hn]
    exact ⟨h1, h2⟩
  halted := hhalted

/-- A move that changes no task, and that no task depends on. -/
theorem Orderly.unmoved (h : Orderly i k (x :: F)) (hk : k.Unmoved k') (hx : x.IsFree)
    (hG : ∀ g ∈ G, g.Relies k) (hroots : ∀ t, k.Roots k' t)
    (howes : ∀ {t p}, k.posture t = some p → p.pending = none → p.hasBody = true →
      p.status.isTerminal = false → ∀ {r : Reaction}, r.Steps t → Owes i k (x :: F) r →
      Owes i k' (G ++ F) r) : Orderly i k' (G ++ F) := by
  refine h.carried hk.posture hk.nextTask (fun {t _} _ => ?_) ?_ hk.current ?_
  · exact .of_free hx (fun hc => hk.current.trans hc) howes (hroots t)
  · intro y hy
    rcases List.mem_append.1 hy with hy | hy
    · exact hk.relies (hG y hy)
    · exact hk.relies (h.frames y (List.mem_cons_of_mem _ hy))
  · intro hh
    rw [hk.halted] at hh
    rcases h.halted hh with ⟨t, hc, hl⟩ | ⟨turn, hm⟩
    · refine Or.inl ⟨t, hk.current.trans hc, ?_⟩
      simp only [Core.Live, hk.posture]
      exact hl
    · rcases List.mem_cons.1 hm with hm | hm
      · exact absurd hm.symm (hx.conclude turn)
      · exact Or.inr ⟨turn, List.mem_append_right _ hm⟩

/-- Frames of the step of a task, and of the driver, are frames that no task depends on. -/
theorem Instr.IsFree.of_turn {t : TaskId} (h : x.turn? = some t) : x.IsFree := by
  cases x with
  | poll | advance | polled | trigger | answer | cancelDone | begun | leave =>
    exact ⟨rfl, fun _ => id, fun _ => id, fun _ h => by cases h⟩
  | _ => cases h

/-! ## Changes of one task -/

theorem Owes.grow {r : Reaction} (h : Owes i k (x :: F) r) (hk : k.Grows k')
    (hx : x = .perform i (.reaction r) → Owes i k' (G ++ F) r) : Owes i k' (G ++ F) r := by
  obtain ⟨rs, hrs⟩ := hk.fresh
  rcases h with h | h | h
  · exact Or.inl (hk.stack ▸ h)
  · exact Or.inr (Or.inl (by rw [hrs]; exact List.mem_append_left _ h))
  · rcases List.mem_cons.1 h with h | h
    · exact hx h.symm
    · exact Or.inr (Or.inr (List.mem_append_right _ h))

theorem Core.Grows.refl (k : Core) : k.Grows k := ⟨rfl, [], by simp⟩

theorem Core.Grows.of_eq (h : k'.agenda = k.agenda) : k.Grows k' := ⟨by rw [h], [], by simp [h]⟩

/-- A frame that performs no step. -/
def Instr.StepsNone (i : MiddlewareId) (x : Instr) : Prop :=
  ∀ t (r : Reaction), r.Steps t → x ≠ .perform i (.reaction r)

/-- What a frame took care of is taken care of by those that come in its place. -/
theorem Carries.of_head (hx : x.StepsNone i) (hk : k.Grows k') (hroots : k.Roots k' t)
    (hcur : k.current = some t → k'.current = some t)
    (hcl : ∀ {p}, k.posture t = some p → p.status.isTerminal = false → p.result = none →
      x.Closes t → ∃ g ∈ G, g.Closes t)
    (htn : ∀ {p}, k.posture t = some p → p.status.isTerminal = false → p.result ≠ none →
      x.Tends t → ∃ g ∈ G, g.Tends t)
    (hfi : t ∈ x.finishes → k'.current = some t ∨ ∃ g ∈ G, t ∈ g.finishes) :
    Carries i k (x :: F) k' (G ++ F) t where
  owes _ _ _ _ r hr h := h.grow hk fun he => absurd he (hx t r hr)
  roots := hroots
  current := hcur
  closes hp hl hr := exists_mem_of_head (hcl hp hl hr) fun _ => id
  tends hp hl hr := exists_mem_of_head (htn hp hl hr) fun _ => id
  finishes := by
    rintro ⟨y, hy, hf⟩
    rcases List.mem_cons.1 hy with rfl | hy
    · exact (hfi hf).imp id fun ⟨g, hg, h⟩ => ⟨g, List.mem_append_left _ hg, h⟩
    · exact Or.inr ⟨y, List.mem_append_right _ hy, hf⟩

/-- What is shown of the one task that a move is about. -/
structure Settled (i : MiddlewareId) (k' : Core) (F' : List Instr) (t : TaskId) (p p' : Posture) :
    Prop where
  standing : p'.status.isTerminal = false → p.status.isTerminal = false ∧ Standing i k' F' t p'
  terminal : p'.status.isTerminal = true → k'.current = some t ∨ ∃ x ∈ F', t ∈ x.finishes

/-- A change of a task that leaves its place in the tree alone. -/
def Core.Places (f : Posture → Posture) : Prop :=
  ∀ p, (f p).parent = p.parent ∧ (f p).detached = p.detached ∧ (f p).children = p.children

/-- A move that changes one task, and takes care of the others. -/
theorem Orderly.altered {f : Posture → Posture} (h : Orderly i k (x :: F))
    (hp : k'.posture = (k.alter t f).posture) (hn : k'.nextTask = k.nextTask) (hf : Core.Places f)
    (hself : ∀ p, k.posture t = some p → Settled i k' (G ++ F) t p (f p))
    (hcarry : ∀ u, u ≠ t → Carries i k (x :: F) k' (G ++ F) u)
    (hframes : ∀ y ∈ G ++ F, y.Relies k')
    (hdriver : ∀ u, k'.current = some u → k'.Afoot u ∧ ∃ p, k.posture u = some p)
    (hhalted : k'.halted ≠ none →
      (∃ u, k'.current = some u ∧ ¬ k'.Live u) ∨ ∃ turn, .conclude turn ∈ G ++ F) :
    Orderly i k' (G ++ F) where
  tasks {u p} hu := by
    have hkids : ∀ {c q v}, k.posture c = some q → q.parent = some v → q.detached = false →
        ∃ q', k'.posture c = some q' ∧ q'.parent = some v ∧ q'.detached = false := by
      intro c q v hq hqp hqd
      rw [hp, Core.posture_alter]
      split
      · rename_i hct
        subst hct
        exact ⟨f q, by rw [hq]; rfl, (hf q).1.trans hqp, (hf q).2.1.trans hqd⟩
      · exact ⟨q, hq, hqp, hqd⟩
    rw [hp, Core.posture_alter] at hu
    split at hu
    · obtain ⟨q, hq, rfl⟩ := Option.map_eq_some_iff.1 hu
      rename_i hut
      subst hut
      obtain ⟨h1, h2⟩ := hself q hq
      refine ⟨hn ▸ (h.tasks hq).number, fun hl => (h1 hl).2, h2, fun hl c hc => ?_⟩
      rw [(hf q).2.2] at hc
      obtain ⟨q', hq', hqp, hqd⟩ := (h.tasks hq).children (h1 hl).1 c hc
      exact hkids hq' hqp hqd
    · rename_i hut
      exact (h.tasks hu).carry hu (hcarry u hut) (Nat.le_of_eq hn.symm) fun _ _ => hkids
  frames := hframes
  driver {u} hu := by
    obtain ⟨h1, p, hq⟩ := hdriver u hu
    refine ⟨h1, ?_⟩
    rw [hp, Core.posture_alter]
    split
    · rename_i hut
      exact ⟨f p, by rw [← hut, hq]; rfl⟩
    · exact ⟨p, hq⟩
  halted := hhalted

/-- A frame that waits relies only on what stays. -/
theorem Instr.Relies.ages (h : x.Relies k) (hk : k.Ages k') (hu : ¬ x.Urgent) : x.Relies k' := by
  cases x with
  | begun | leave => exact absurd trivial hu
  | returned => exact hk.afoot h
  | abortDone | conclude => exact hk.stripped h
  | cancelEach => exact fun t ht => hk.doomed (h t ht)
  | cancelOne => exact ⟨hk.stripped h.1, fun t ht => hk.doomed (h.2 t ht)⟩
  | _ => trivial

/-- Frames that wait still rely on what they did. -/
theorem Core.Ages.relies (hk : k.Ages k') (h : ∀ y ∈ x :: F, y.Relies k)
    (hu : ∀ y ∈ F, ¬ y.Urgent) : ∀ y ∈ F, y.Relies k' :=
  fun y hy => (h y (List.mem_cons_of_mem _ hy)).ages hk (hu y hy)

theorem Core.Ages.of_eq {k₁ : Core} (h : k.Ages k₁) (hp : k'.posture = k₁.posture)
    (hn : k'.nextTask = k₁.nextTask) : k.Ages k' where
  doomed ht := by
    have := h.doomed ht
    simpa only [Core.Doomed, hp, hn] using this
  stripped ht := by
    have := h.stripped ht
    simpa only [Core.Stripped, hp, hn] using this
  afoot ht := by
    have := h.afoot ht
    simpa only [Core.Afoot, hp, hn] using this

/-- The task that was met by a cancellation within its own step stays terminal. -/
theorem Orderly.halted_ages (h : Orderly i k (x :: F)) (hk : k.Ages k')
    (hcur : k'.current = k.current) (hh : k'.halted = k.halted) (hx : ∀ turn, x ≠ .conclude turn)
    (hne : k'.halted ≠ none) :
    (∃ u, k'.current = some u ∧ ¬ k'.Live u) ∨ ∃ turn, .conclude turn ∈ G ++ F := by
  rw [hh] at hne
  rcases h.halted hne with ⟨t, hc, hl⟩ | ⟨turn, hm⟩
  · exact Or.inl ⟨t, hcur.trans hc, (hk.doomed ((h.driver hc).1.doomed hl)).not_live⟩
  · rcases List.mem_cons.1 hm with hm | hm
    · exact absurd hm.symm (hx turn)
    · exact Or.inr ⟨turn, List.mem_append_right _ hm⟩

/-- The step that is under way stays what it is. -/
theorem Orderly.driver_ages (h : Orderly i k F) (hk : k.Ages k') (hcur : k'.current = k.current)
    {u : TaskId} (hu : k'.current = some u) : k'.Afoot u ∧ ∃ p, k.posture u = some p := by
  obtain ⟨h1, h2⟩ := h.driver (hcur.symm.trans hu)
  exact ⟨hk.afoot h1, h2⟩

/-! ## The end of a task -/

/-- A task is taken out of the table. -/
theorem Orderly.buried {outcome : Outcome} (h : Orderly i k (x :: F))
    (hp : k'.posture = (k.bury t).posture) (hn : k'.nextTask = k.nextTask)
    (hcur : k'.current = k.current) (hw : k'.waits = k.waits) (hk : k.Grows k')
    (hct : k.current ≠ some t) (hx : x.StepsNone i)
    (hcl : ∀ u, u ≠ t → ¬ x.Closes u) (htn : ∀ u, u ≠ t → x.Tends u → ∃ g ∈ G, g.Tends u)
    (hfi : ∀ u, u ≠ t → u ∈ x.finishes → ∃ g ∈ G, u ∈ g.finishes)
    (hc : ∀ c, k.cascade t outcome = some c → ∃ g ∈ G, g.Tends c.task)
    (hframes : ∀ y ∈ G ++ F, y.Relies k')
    (hhalted : k'.halted ≠ none →
      (∃ u, k'.current = some u ∧ ¬ k'.Live u) ∨ ∃ turn, .conclude turn ∈ G ++ F) :
    Orderly i k' (G ++ F) where
  tasks {u p'} hu := by
    rw [hp, Core.posture_bury] at hu
    split at hu
    · cases hu
    · rename_i hut
      obtain ⟨p, hup, rfl⟩ := Option.map_eq_some_iff.1 hu
      have hcar : Carries i k (x :: F) k' (G ++ F) u :=
        .of_head hx hk (Core.Roots.of_waits hw) (fun h => hcur.trans h)
          (fun _ _ _ hc => absurd hc (hcl u hut)) (fun _ _ _ => htn u hut)
          fun hf => Or.inr (hfi u hut hf)
      have hold := h.tasks hup
      have hkids : ∀ {c q}, c ≠ t → k.posture c = some q → q.parent = some u → q.detached = false →
          ∃ q', k'.posture c = some q' ∧ q'.parent = some u ∧ q'.detached = false := by
        intro c q hct hq hqp hqd
        refine ⟨k.shed t c q, ?_, ?_, ?_⟩
        · rw [hp, Core.posture_bury, if_neg hct, hq]
          rfl
        · rw [k.shed_eq]
          exact hqp
        · rw [k.shed_eq]
          exact hqd
      cases ht : k.posture t with
      | none =>
        have hsame : k.shed t u p = p := by simp [Core.shed, ht]
        rw [hsame]
        refine hold.carry hup hcar (Nat.le_of_eq hn.symm) ?_
        intro c q _ _ hq hqp hqd
        refine hkids ?_ hq hqp hqd
        rintro rfl
        rw [ht] at hq
        cases hq
      | some q =>
        by_cases hpar : q.parent = some u ∧ q.detached = false ∧ p.status.isTerminal = false
        · have hshed : k.shed t u p = { p with children := p.children.filter (· ≠ t) } := by
            simp [Core.shed, ht, hpar]
          rw [hshed]
          obtain ⟨hqp, hqd, hl⟩ := hpar
          refine ⟨hn ▸ hold.number, fun _ => ?_, fun h => ?_, fun _ c hcm => ?_⟩
          · cases (hold.standing hl).carry hup hcar hl with
            | created hs hb hpn hr h => exact .created hs hb hpn hr h
            | yielded hs hb hpn hr h => exact .yielded hs hb hpn hr h
            | parked hs hb hpx hr h ht hl => exact .parked hs hb hpx hr h ht hl
            | running hs hb hr h => exact .running hs hb hr h
            | waiting hb hr h =>
              refine .waiting hb hr ?_
              rcases h with ⟨hs, -⟩ | h
              · by_cases hnil : p.children.filter (· ≠ t) = []
                · refine Or.inr ?_
                  have hcas : ∃ c, k.cascade t outcome = some c ∧ c.task = u := by
                    rcases Core.cascade_of_parent hut ht hqp hqd hup hl outcome with ⟨f, hf⟩ | hf
                    · exact ⟨_, hf, rfl⟩
                    · exact ⟨_, hf (by rw [hr]; rfl) hnil, rfl⟩
                  obtain ⟨c, hcas, hcu⟩ := hcas
                  obtain ⟨g, hg, hgt⟩ := hc c hcas
                  exact ⟨g, List.mem_append_left _ hg, hcu ▸ hgt⟩
                · exact Or.inl ⟨hs, hnil⟩
              · exact Or.inr h
          · rw [hl] at h
            cases h
          · obtain ⟨hcm, hct⟩ := List.mem_filter.1 hcm
            obtain ⟨q', hq', hqp', hqd'⟩ := hold.children hl c hcm
            exact hkids (by simpa using hct) hq' hqp' hqd'
        · have hsame : k.shed t u p = p := by simp [Core.shed, ht, hpar]
          rw [hsame]
          refine hold.carry hup hcar (Nat.le_of_eq hn.symm) ?_
          intro c q' _ hl hq' hqp' hqd'
          refine hkids ?_ hq' hqp' hqd'
          rintro rfl
          rw [ht] at hq'
          cases hq'
          exact hpar ⟨hqp', hqd', hl⟩
  frames := hframes
  driver {u} hu := by
    rw [hcur] at hu
    obtain ⟨h1, p, hq⟩ := h.driver hu
    have hut : u ≠ t := by
      rintro rfl
      exact hct hu
    refine ⟨((k.ages_bury t).of_eq hp ?_).afoot h1, k.shed t u p, ?_⟩
    · rw [hn, Core.nextTask_bury]
    · rw [hp, Core.posture_bury, if_neg hut, hq]
      rfl
  halted := hhalted

/-! ## New tasks -/

/-- Only the children of a task change. -/
theorem Standing.adopt (h : Standing i k F t p) {cs : List TaskId}
    (hc : p.children ≠ [] → cs ≠ []) : Standing i k F t { p with children := cs } := by
  cases h with
  | created hs hb hn hr h => exact .created hs hb hn hr h
  | yielded hs hb hn hr h => exact .yielded hs hb hn hr h
  | parked hs hb hx hr h ht hl => exact .parked hs hb hx hr h ht hl
  | running hs hb hr h => exact .running hs hb hr h
  | waiting hb hr h => exact .waiting hb hr (h.imp (fun h => ⟨h.1, hc h.2⟩) id)

/-- More frames and more work for the driver take nothing away from a task. -/
theorem Carries.extend (hw : k'.waits = k.waits) (hc : k'.current = k.current)
    (hg : k.Grows k') : Carries i k F k' (G ++ F) t where
  owes _ _ _ _ r _ h := by
    obtain ⟨rs, hrs⟩ := hg.fresh
    rcases h with h | h | h
    · exact Or.inl (hg.stack ▸ h)
    · exact Or.inr (Or.inl (by rw [hrs]; exact List.mem_append_left _ h))
    · exact Or.inr (Or.inr (List.mem_append_right _ h))
  roots := Core.Roots.of_waits hw
  current h := hc.trans h
  closes := fun _ _ _ ⟨x, hx, h⟩ => ⟨x, List.mem_append_right _ hx, h⟩
  tends := fun _ _ _ ⟨x, hx, h⟩ => ⟨x, List.mem_append_right _ hx, h⟩
  finishes := fun ⟨x, hx, h⟩ => Or.inr ⟨x, List.mem_append_right _ hx, h⟩

/-- More frames, and more work for the driver. -/
theorem Orderly.extend (h : Orderly i k F) (hk : k.Unmoved k') (hw : k'.waits = k.waits)
    (hg : k.Grows k') (hG : ∀ g ∈ G, g.Relies k) : Orderly i k' (G ++ F) where
  tasks {t p} hp := by
    rw [hk.posture] at hp
    refine (h.tasks hp).carry hp (.extend hw hk.current hg) (Nat.le_of_eq hk.nextTask.symm) ?_
    intro c q _ _ hq hqp hqd
    exact ⟨q, by rw [hk.posture, hq], hqp, hqd⟩
  frames y hy := by
    rcases List.mem_append.1 hy with hy | hy
    · exact hk.relies (hG y hy)
    · exact hk.relies (h.frames y hy)
  driver {t} hc := by
    obtain ⟨h1, h2⟩ := h.driver (hk.current.symm.trans hc)
    simp only [Core.Afoot, hk.posture, hk.nextTask]
    exact ⟨h1, h2⟩
  halted hh := by
    rw [hk.halted] at hh
    rcases h.halted hh with ⟨t, hc, hl⟩ | ⟨turn, hm⟩
    · refine Or.inl ⟨t, hk.current.trans hc, ?_⟩
      simp only [Core.Live, hk.posture]
      exact hl
    · exact Or.inr ⟨turn, List.mem_append_right _ hm⟩

/-- A task is created, and will be started. -/
theorem Orderly.created {parent : Option TaskId} {detached : Bool} (h : Orderly i k F)
    (hpar : ∀ u, parent = some u → k.Live u)
    (hF : ∀ y ∈ F, ¬ y.Urgent ∨ ∀ k : Core, y.Relies k) :
    Orderly i ((k.create parent detached).schedule [.start k.nextTask]) F := by
  have hnew : parent ≠ some k.nextTask := by
    rintro hp
    obtain ⟨p, hp, -⟩ := hpar _ hp
    exact Nat.lt_irrefl _ (h.tasks hp).number
  have hpost := k.posture_create detached hnew
  have hnext := k.nextTask_create parent detached
  have hrest : (k.create parent detached).waits = k.waits ∧
      (k.create parent detached).agenda = k.agenda ∧
      (k.create parent detached).current = k.current ∧
      (k.create parent detached).halted = k.halted := by
    rw [k.create_eq]
    exact ⟨rfl, rfl, rfl, rfl⟩
  obtain ⟨hw, ha, hcur, hhalt⟩ := hrest
  generalize k.create parent detached = k₁ at hpost hnext hw ha hcur hhalt
  have hages : k.Ages (k₁.schedule [.start k.nextTask]) := by
    refine .of_old (by show _ ≤ k₁.nextTask; rw [hnext]; exact Nat.le_succ _) ?_
    intro u p' hu hp
    have hp : k₁.posture u = some p' := hp
    rw [hpost, if_neg (Nat.ne_of_lt hu)] at hp
    obtain ⟨p, hold, rfl⟩ := Option.map_eq_some_iff.1 hp
    exact ⟨p, hold, k.welcome_eq parent detached u p⟩
  have hgrow : k.Grows (k₁.schedule [.start k.nextTask]) :=
    ⟨by show k₁.agenda.stack = _; rw [ha], [.start k.nextTask], by simp [Core.schedule, ha]⟩
  have hold : ∀ {u p}, k.posture u = some p →
      k₁.posture u = some (k.welcome parent detached u p) := by
    intro u p hp
    rw [hpost, if_neg (Nat.ne_of_lt (h.tasks hp).number), hp]
    rfl
  refine ⟨?_, ?_, ?_, ?_⟩
  · intro t p' hp
    have hp : k₁.posture t = some p' := hp
    rw [hpost] at hp
    split at hp
    · cases hp
      rename_i ht
      subst ht
      refine ⟨by show _ < k₁.nextTask; rw [hnext]; exact Nat.lt_succ_self _, fun _ => ?_, ?_, ?_⟩
      · exact .created rfl rfl rfl rfl (Or.inr (Or.inl (by simp [Core.schedule])))
      · intro ht
        cases ht
      · intro _ c hc
        cases hc
    · obtain ⟨p, hwas, rfl⟩ := Option.map_eq_some_iff.1 hp
      have hkids : ∀ {c q}, c ∈ p.children → p.status.isTerminal = false → k.posture c = some q →
          q.parent = some t → q.detached = false →
          ∃ q', k₁.posture c = some q' ∧ q'.parent = some t ∧ q'.detached = false := by
        intro c q _ _ hq hqp hqd
        refine ⟨_, hold hq, ?_, ?_⟩
        · rw [k.welcome_eq]
          exact hqp
        · rw [k.welcome_eq]
          exact hqd
      have hcarry : InOrder i (k₁.schedule [.start k.nextTask]) F t p :=
        (h.tasks hwas).carry hwas (Carries.extend (G := []) hw hcur hgrow)
          (by show _ ≤ k₁.nextTask; rw [hnext]; exact Nat.le_succ _) hkids
      unfold Core.welcome
      split
      · rename_i hparent
        refine ⟨hcarry.number, fun hl => ?_, hcarry.terminal, fun hl c hc => ?_⟩
        · exact (hcarry.standing hl).adopt fun _ => by simp
        · rcases List.mem_append.1 hc with hc | hc
          · exact hcarry.children hl c hc
          · rw [List.mem_singleton.1 hc]
            refine ⟨.fresh parent detached, ?_, hparent.1, hparent.2⟩
            show k₁.posture _ = _
            rw [hpost, if_pos rfl]
      · exact hcarry
  · intro y hy
    rcases hF y hy with hu | hr
    · exact (h.frames y hy).ages hages hu
    · exact hr _
  · intro t hc
    obtain ⟨h1, p, hp⟩ := h.driver (hcur.symm.trans hc)
    exact ⟨hages.afoot h1, _, hold hp⟩
  · intro hh
    have hh : k₁.halted ≠ none := hh
    rw [hhalt] at hh
    rcases h.halted hh with ⟨t, hc, hl⟩ | hm
    · exact Or.inl ⟨t, hcur.trans hc, (hages.doomed ((h.driver hc).1.doomed hl)).not_live⟩
    · exact Or.inr hm

end

end SagaMachine
