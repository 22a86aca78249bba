import SagaMachine.Proofs.Soundness

/-!
# Parents and children

Between a task and its attached children the table is kept in step from both sides: a live
task lists its attached children, each of them once, and a live child has a live parent unless
its own cancellation is on the way. A parent that is about to complete has no children left.

Main statement: `Kinship.move`.
-/

namespace SagaMachine

/-- A frame is going to complete a task. -/
def Instr.Completes (t : TaskId) : Instr → Prop
  | .cascade _ (.complete u) => u = t
  | .cancelEach _ _ cascades | .cancelOne _ _ _ cascades => .complete t ∈ cascades
  | _ => False

/-- How the tasks of the table are related, while some frames are at work. -/
structure Kinship (i : MiddlewareId) (k : Core) (F : List Instr) : Prop where
  below : ∀ {c p q}, k.posture c = some p → p.parent = some q → q < c
  nodup : ∀ {q p}, k.posture q = some p → p.status.isTerminal = false → p.children.Nodup
  listed : ∀ {c p q r}, k.posture c = some p → p.parent = some q → p.detached = false →
    k.posture q = some r → r.status.isTerminal = false → c ∈ r.children
  upheld : ∀ {c p q}, k.posture c = some p → p.status.isTerminal = false → p.parent = some q →
    p.detached = false → k.Live q ∨ .cancel i c ∈ F
  ready : ∀ x ∈ F, ∀ {t p}, x.Completes t → k.posture t = some p →
    p.status.isTerminal = false → p.children = []

/-- Tasks keep their relatives, and are live or not as they were. -/
structure Core.Kin (k k' : Core) : Prop where
  old : ∀ {t p'}, k'.posture t = some p' → ∃ p, k.posture t = some p ∧ p'.parent = p.parent ∧
    p'.detached = p.detached ∧ p'.children = p.children ∧ p'.status.isTerminal = p.status.isTerminal
  live : ∀ {t}, k.Live t → k'.Live t

section

variable {i : MiddlewareId} {k k' : Core} {F F' G : List Instr} {x : Instr} {t u : TaskId}
  {past : List Event} {D : List TaskId} {es : List Event}

theorem Core.Kin.of_posture (h : k'.posture = k.posture) : k.Kin k' where
  old hp := ⟨_, h ▸ hp, rfl, rfl, rfl, rfl⟩
  live hl := by
    obtain ⟨p, hp, hlp⟩ := hl
    exact ⟨p, h ▸ hp, hlp⟩

theorem Core.kin_alter (k : Core) (t : TaskId) {f : Posture → Posture}
    (h : ∀ p, k.posture t = some p → (f p).parent = p.parent ∧ (f p).detached = p.detached ∧
      (f p).children = p.children ∧ (f p).status.isTerminal = p.status.isTerminal) :
    k.Kin (k.alter t f) where
  old {u p'} hp := by
    rw [posture_alter] at hp
    split at hp
    · rename_i hut
      subst hut
      obtain ⟨p, hq, rfl⟩ := Option.map_eq_some_iff.1 hp
      exact ⟨p, hq, h p hq⟩
    · exact ⟨p', hp, rfl, rfl, rfl, rfl⟩
  live {u} hl := by
    obtain ⟨p, hp, hlp⟩ := hl
    by_cases hut : u = t
    · subst hut
      exact ⟨f p, by simp [hp], (h p hp).2.2.2.trans hlp⟩
    · exact ⟨p, by simp [hut, hp], hlp⟩

theorem Core.Kin.trans {k'' : Core} (h : k.Kin k') (h' : k'.Kin k'') : k.Kin k'' where
  old hp := by
    obtain ⟨p', hp', h1, h2, h3, h4⟩ := h'.old hp
    obtain ⟨p, hp, g1, g2, g3, g4⟩ := h.old hp'
    exact ⟨p, hp, h1.trans g1, h2.trans g2, h3.trans g3, h4.trans g4⟩
  live hl := h'.live (h.live hl)

namespace Kinship

theorem start (i : MiddlewareId) : Kinship i (Engine.core {}) [] where
  below h := by cases h
  nodup h := by cases h
  listed h := by cases h
  upheld h := by cases h
  ready x hx := by cases hx

/-- Only frames that cancel or complete tasks matter. -/
theorem frames (h : Kinship i k F) (hc : ∀ c, k.Live c → .cancel i c ∈ F → .cancel i c ∈ F')
    (hr : ∀ x ∈ F', ∀ {t}, x.Completes t → (∃ y ∈ F, y.Completes t) ∨
      ∀ p, k.posture t = some p → p.status.isTerminal = false → p.children = []) :
    Kinship i k F' where
  below := h.below
  nodup := h.nodup
  listed := h.listed
  upheld hp hl hq hd := (h.upheld hp hl hq hd).imp_right (hc _ ⟨_, hp, hl⟩)
  ready x hx t p hxt hp hl := by
    rcases hr x hx hxt with ⟨y, hy, hyt⟩ | hr
    · exact h.ready y hy hyt hp hl
    · exact hr p hp hl

/-- Nothing changes between parents and children. -/
theorem kin (h : Kinship i k F) (hk : k.Kin k') : Kinship i k' F where
  below hp hq := by
    obtain ⟨p, hp, h1, -⟩ := hk.old hp
    exact h.below hp (h1 ▸ hq)
  nodup hp hl := by
    obtain ⟨p, hp, -, -, h3, h4⟩ := hk.old hp
    exact h3 ▸ h.nodup hp (h4 ▸ hl)
  listed hp hq hd hr hl := by
    obtain ⟨p, hp, h1, h2, -⟩ := hk.old hp
    obtain ⟨r, hr, -, -, h3, h4⟩ := hk.old hr
    exact h3 ▸ h.listed hp (h1 ▸ hq) (h2 ▸ hd) hr (h4 ▸ hl)
  upheld hp hl hq hd := by
    obtain ⟨p, hp, h1, h2, -, h4⟩ := hk.old hp
    exact (h.upheld hp (h4 ▸ hl) (h1 ▸ hq) (h2 ▸ hd)).imp_left hk.live
  ready x hx t p hxt hp hl := by
    obtain ⟨p, hp, -, -, h3, h4⟩ := hk.old hp
    exact h3 ▸ h.ready x hx hxt hp (h4 ▸ hl)

/-- A frame is carried out that leaves everything between parents and children as it is. -/
theorem calm (h : Kinship i k (x :: F)) (hk : k.Kin k')
    (hx : ∀ c, k.Live c → x ≠ .cancel i c) (hG : ∀ y ∈ G, ∀ u, ¬ y.Completes u) :
    Kinship i k' (G ++ F) := by
  refine Kinship.kin (k := k) (h.frames ?_ ?_) hk
  · intro c hl hc
    rcases List.mem_cons.1 hc with hc | hc
    · exact absurd hc.symm (hx c hl)
    · exact List.mem_append_right _ hc
  · intro y hy u hyu
    rcases List.mem_append.1 hy with hy | hy
    · exact absurd hyu (hG y hy u)
    · exact Or.inl ⟨y, List.mem_cons_of_mem _ hy, hyu⟩

/-- A frame hands on to another one what it is going to complete. -/
theorem handOn {y : Instr} (h : Kinship i k (x :: F)) (hx : ∀ c, x ≠ .cancel i c)
    (hy : ∀ {u}, y.Completes u → x.Completes u) : Kinship i k ([y] ++ F) := by
  refine h.frames ?_ ?_
  · intro c _ hc
    rcases List.mem_cons.1 hc with hc | hc
    · exact absurd hc.symm (hx c)
    · exact List.mem_append_right _ hc
  · intro z hz u hzu
    left
    rcases List.mem_append.1 hz with hz | hz
    · rw [List.mem_singleton.1 hz] at hzu
      exact ⟨x, List.mem_cons_self, hy hzu⟩
    · exact ⟨z, List.mem_cons_of_mem _ hz, hzu⟩

/-- A task is created, as the child of a live one or as nobody's, while nothing completes. -/
theorem create (h : Kinship i k F) {parent : Option TaskId} {detached : Bool}
    (hn : ∀ {u p}, k.posture u = some p → u < k.nextTask)
    (hc : ∀ {u p}, k.posture u = some p → p.status.isTerminal = false → ∀ c ∈ p.children,
      ∃ q, k.posture c = some q)
    (hpar : ∀ u, parent = some u → k.Live u)
    (hF : parent = none ∨ ∀ y ∈ F, ∀ u, ¬ y.Completes u) :
    Kinship i (k.create parent detached) F := by
  have hnew : parent ≠ some k.nextTask := by
    rintro hp
    obtain ⟨p, hp, -⟩ := hpar _ hp
    exact Nat.lt_irrefl _ (hn hp)
  have hpost := k.posture_create detached hnew
  have hold : ∀ {u p'}, (k.create parent detached).posture u = some p' → u ≠ k.nextTask →
      ∃ p, k.posture u = some p ∧ p' = k.welcome parent detached u p := by
    intro u p' hp hu
    rw [hpost, if_neg hu] at hp
    obtain ⟨p, hq, rfl⟩ := Option.map_eq_some_iff.1 hp
    exact ⟨p, hq, rfl⟩
  have hfresh : ∀ {p'}, (k.create parent detached).posture k.nextTask = some p' →
      p' = .fresh parent detached := by
    intro p' hp
    rw [hpost, if_pos rfl] at hp
    exact (Option.some.inj hp).symm
  have hlive : ∀ {u}, k.Live u → (k.create parent detached).Live u := by
    rintro u ⟨p, hp, hl⟩
    have hu : u ≠ k.nextTask := fun he => Nat.lt_irrefl _ (he ▸ (hn hp))
    refine ⟨k.welcome parent detached u p, by rw [hpost, if_neg hu, hp]; rfl, ?_⟩
    rw [k.welcome_eq]
    exact hl
  have hkids : ∀ u p, k.welcome parent detached u p = p ∨ parent = some u ∧ detached = false ∧
      (k.welcome parent detached u p).children = p.children ++ [k.nextTask] := by
    intro u p
    unfold Core.welcome
    split
    · rename_i hc'
      exact Or.inr ⟨hc'.1, hc'.2, rfl⟩
    · exact Or.inl rfl
  refine ⟨?_, ?_, ?_, ?_, ?_⟩
  · intro c p' q hp' hq
    by_cases hcn : c = k.nextTask
    · subst hcn
      cases hfresh hp'
      obtain ⟨p, hp, -⟩ := hpar q hq
      exact (hn hp)
    · obtain ⟨p, hp, rfl⟩ := hold hp' hcn
      rw [k.welcome_eq] at hq
      exact h.below hp hq
  · intro q p' hp' hl
    by_cases hq : q = k.nextTask
    · subst hq
      cases hfresh hp'
      exact List.nodup_nil
    · obtain ⟨p, hp, rfl⟩ := hold hp' hq
      rw [k.welcome_eq] at hl
      rcases hkids q p with he | ⟨-, -, he⟩
      · rw [he]
        exact h.nodup hp hl
      · rw [he, List.nodup_append]
        refine ⟨h.nodup hp hl, by simp, ?_⟩
        rintro c hcm _ hm rfl
        obtain ⟨pc, hpc⟩ := hc hp hl c hcm
        rw [List.mem_singleton.1 hm] at hpc
        exact Nat.lt_irrefl _ (hn hpc)
  · intro c p' q r' hp' hq hd hr' hl
    have hqn : q ≠ k.nextTask := by
      rintro rfl
      by_cases hcn : c = k.nextTask
      · subst hcn
        cases hfresh hp'
        exact hnew hq
      · obtain ⟨p, hp, rfl⟩ := hold hp' hcn
        rw [k.welcome_eq] at hq
        exact Nat.lt_asymm (h.below hp hq) (hn hp)
    obtain ⟨r, hr, rfl⟩ := hold hr' hqn
    rw [k.welcome_eq] at hl
    by_cases hcn : c = k.nextTask
    · subst hcn
      cases hfresh hp'
      have hd : detached = false := hd
      have hq : parent = some q := hq
      simp [Core.welcome, hq, hd]
    · obtain ⟨p, hp, rfl⟩ := hold hp' hcn
      rw [k.welcome_eq] at hq hd
      have hm := h.listed hp hq hd hr hl
      rcases hkids q r with he | ⟨-, -, he⟩
      · rw [he]
        exact hm
      · rw [he]
        exact List.mem_append_left _ hm
  · intro c p' q hp' hl hq hd
    by_cases hcn : c = k.nextTask
    · subst hcn
      cases hfresh hp'
      exact Or.inl (hlive (hpar q hq))
    · obtain ⟨p, hp, rfl⟩ := hold hp' hcn
      rw [k.welcome_eq] at hl hq hd
      exact (h.upheld hp hl hq hd).imp_left hlive
  · intro y hy u p' hyu hp' hl
    by_cases hu : u = k.nextTask
    · subst hu
      cases hfresh hp'
      rfl
    · obtain ⟨p, hp, rfl⟩ := hold hp' hu
      rw [k.welcome_eq] at hl
      rcases hkids u p with he | ⟨he, -⟩
      · rw [he]
        exact h.ready y hy hyu hp hl
      · rcases hF with hF | hF
        · rw [hF] at he
          cases he
        · exact absurd hyu (hF y hy u)

/-- A task leaves the table that is terminal, or has no children any more. -/
theorem bury (h : Kinship i k F)
    (ht : ∀ p, k.posture t = some p → p.status.isTerminal = false → p.children = []) :
    Kinship i (k.bury t) F := by
  have hold : ∀ {u p'}, (k.bury t).posture u = some p' → u ≠ t ∧
      ∃ p, k.posture u = some p ∧ p' = k.shed t u p := by
    intro u p' hp
    rw [Core.posture_bury] at hp
    split at hp
    · cases hp
    · rename_i hu
      obtain ⟨p, hq, rfl⟩ := Option.map_eq_some_iff.1 hp
      exact ⟨hu, p, hq, rfl⟩
  have hkids : ∀ u p, (k.shed t u p).children = p.children ∨
      (k.shed t u p).children = p.children.filter (· ≠ t) := by
    intro u p
    unfold Core.shed
    split
    · exact Or.inl rfl
    · split
      · exact Or.inr rfl
      · exact Or.inl rfl
  refine ⟨?_, ?_, ?_, ?_, ?_⟩
  · intro c p' q hp' hq
    obtain ⟨-, p, hp, rfl⟩ := hold hp'
    rw [k.shed_eq] at hq
    exact h.below hp hq
  · intro q p' hp' hl
    obtain ⟨-, p, hp, rfl⟩ := hold hp'
    rw [k.shed_status] at hl
    rcases hkids q p with he | he
    · rw [he]
      exact h.nodup hp hl
    · rw [he]
      exact (h.nodup hp hl).filter _
  · intro c p' q r' hp' hq hd hr' hl
    obtain ⟨hct, p, hp, rfl⟩ := hold hp'
    obtain ⟨-, r, hr, rfl⟩ := hold hr'
    rw [k.shed_eq] at hq hd
    rw [k.shed_status] at hl
    have hm := h.listed hp hq hd hr hl
    rcases hkids q r with he | he
    · rw [he]
      exact hm
    · rw [he]
      exact List.mem_filter.2 ⟨hm, by simpa using hct⟩
  · intro c p' q hp' hl hq hd
    obtain ⟨hct, p, hp, rfl⟩ := hold hp'
    rw [k.shed_status] at hl
    rw [k.shed_eq] at hq hd
    rcases h.upheld hp hl hq hd with ⟨r, hr, hlr⟩ | hc
    · left
      have hqt : q ≠ t := by
        rintro rfl
        have hm := h.listed hp hq hd hr hlr
        rw [ht r hr hlr] at hm
        cases hm
      refine ⟨k.shed t q r, by rw [Core.posture_bury, if_neg hqt, hr]; rfl, ?_⟩
      rw [k.shed_status]
      exact hlr
    · exact Or.inr hc
  · intro y hy u p' hyu hp' hl
    obtain ⟨-, p, hp, rfl⟩ := hold hp'
    rw [k.shed_status] at hl
    have hnil := h.ready y hy hyu hp hl
    rcases hkids u p with he | he
    · rw [he, hnil]
    · rw [he, hnil, List.filter_nil]

end Kinship

/-- The parent that completes when a task ended is live, holds a value, and has no child left. -/
theorem Core.of_cascade_complete {outcome : Outcome}
    (h : k.cascade t outcome = some (.complete u)) :
    ∃ q p, k.posture t = some q ∧ q.parent = some u ∧ q.detached = false ∧ u ≠ t ∧
      k.posture u = some p ∧ p.status.isTerminal = false ∧ p.result.isSome = true ∧
      p.children.filter (· ≠ t) = [] := by
  unfold Core.cascade at h
  cases ht : k.posture t with
  | none =>
    rw [ht] at h
    cases h
  | some q =>
    obtain ⟨parent, detached, children, status, hasBody, pending, result⟩ := q
    rw [ht] at h
    cases parent with
    | none => cases h
    | some v =>
      cases detached with
      | true => cases h
      | false =>
        simp only at h
        split at h
        · cases h
        · rename_i above hv
          split at h
          · cases h
          · rename_i hl
            split at h
            · cases h
            · split at h
              · rename_i hdone
                cases h
                rw [posture_remove] at hv
                split at hv
                · cases hv
                rename_i hvt
                rw [Bool.and_eq_true, List.isEmpty_iff] at hdone
                exact ⟨_, above, rfl, rfl, rfl, hvt, hv, by simpa using hl, hdone.1, hdone.2⟩
              · cases h

theorem Core.children_of_cascade {outcome : Outcome}
    (h : k.cascade t outcome = some (.complete u)) {p : Posture}
    (hp : (k.bury t).posture u = some p) : p.children = [] := by
  obtain ⟨q, r, hq, hpar, hd, hut, hr, hl, -, hnil⟩ := of_cascade_complete h
  rw [posture_bury, if_neg hut, hr] at hp
  cases hp
  simp only [shed, hq, hpar, hd, hl, and_self, if_true]
  exact hnil

namespace Kinship

/-- The outcome of a task is recorded, and its parent goes on if it has to. -/
theorem buries {outcome : Outcome} {c : Option Cascade} (h : Kinship i k F)
    (ht : ∀ p, k.posture t = some p → p.status.isTerminal = false → p.children = [])
    (hb : Buries past k t outcome k' c es) :
    Kinship i k' F ∧ ∀ u p, c = some (.complete u) → k'.posture u = some p → p.children = [] := by
  cases hb with
  | absent => exact ⟨h, fun u p hc => by cases hc⟩
  | gone hp =>
    refine ⟨(h.bury ht).kin (.of_posture rfl), ?_⟩
    intro u p hc hu
    exact Core.children_of_cascade hc hu

/-- The frames of the parents that go on. -/
theorem cascades {c : Option Cascade} (h : Kinship i k F)
    (hc : ∀ u p, c = some (.complete u) → k.posture u = some p → p.children = []) :
    Kinship i k (c.toList.map (.cascade i) ++ F) := by
  refine h.frames (fun c _ hm => List.mem_append_right _ hm) ?_
  intro y hy u hyu
  rcases List.mem_append.1 hy with hy | hy
  · right
    obtain ⟨d, hd, rfl⟩ := List.mem_map.1 hy
    cases d with
    | abort => exact hyu.elim
    | complete v =>
      have hvu : v = u := hyu
      subst hvu
      exact fun p hp _ => hc v p (Option.mem_toList.1 hd) hp
  · exact Or.inl ⟨y, hy, hyu⟩

end Kinship

theorem Instr.not_completes_of_turn (hx : x.turn? = some t) : ¬ x.Completes u := by
  intro h
  cases x with
  | cascade _ c => cases hx
  | cancelEach | cancelOne => cases hx
  | _ => exact h

/-- What a frame of a step leaves behind completes nobody. -/
theorem Does.kinship_turn (h : Does i past x k k' G D es) (hx : x.turn? = some t)
    (hs : Stack i k.current (x :: F)) (ho : Orderly i k (x :: F)) (hT : Tabled k (x :: F) past)
    (hk : Kinship i k (x :: F)) : Kinship i k' (G ++ F) := by
  obtain ⟨hcur, rfl⟩ := hs.of_turn hx
  have hxc : ∀ c, k.Live c → x ≠ .cancel i c := by
    rintro c - rfl
    cases hx
  have hdrain : ∀ y ∈ [Instr.drain i], ∀ u, ¬ y.Completes u := by
    intro y hy u
    rw [List.mem_singleton.1 hy]
    exact id
  by_cases hl : ∃ b exit, x = .leave ⟨i, t⟩ b exit
  · obtain ⟨b, exit, rfl⟩ := hl
    have hp : ∀ pending, k.Live t → k.Kin (k.park t pending) := by
      rintro pending ⟨p, hp, hlp⟩
      have hrest : k.Kin { k with current := none } := .of_posture rfl
      refine hrest.trans (Core.kin_alter _ _ fun q hq => ⟨rfl, rfl, rfl, ?_⟩)
      have hq : k.posture t = some q := hq
      rw [hp] at hq
      cases hq
      rw [hlp]
      rfl
    have hr := ho.frames _ List.mem_cons_self
    cases h with
    | leaveSuspended => exact hk.calm (hp _ hr) hxc fun y hy => by cases hy
    | leaveYielded =>
      exact hk.calm ((hp _ hr).trans (.of_posture rfl)) hxc fun y hy => by cases hy
    | leaveFinished | leaveEnded | leaveFailed | leaveHalted =>
      refine hk.calm (.of_posture rfl) hxc fun y hy u => ?_
      rw [List.mem_singleton.1 hy]
      exact id
  · have hrel := ho.frames _ List.mem_cons_self
    obtain ⟨b, exit, he⟩ | ⟨g, G₀, k₁, rfl, hG₀, ⟨hun, -, -, new, hp⟩, hk'⟩ :=
      h.turns hx hT (ho.driver hcur).1 hrel
    · exact absurd ⟨b, exit, he⟩ hl
    have hG : ∀ y ∈ G₀ ++ [g], ∀ u, ¬ y.Completes u := by
      intro y hy u
      rcases List.mem_append.1 hy with hy | hy
      · obtain ⟨v, rfl⟩ := hG₀ y hy
        exact id
      · rw [List.mem_singleton.1 hy]
        exact Instr.not_completes_of_turn hp.turn
    have hGF : ∀ y ∈ G₀ ++ [g] ++ [.drain i], ∀ u, ¬ y.Completes u := by
      intro y hy u
      rcases List.mem_append.1 hy with hy | hy
      · exact hG y hy u
      · exact hdrain y hy u
    rcases hk' with rfl | ⟨detached, hlive, -, rfl⟩
    · exact hk.calm (.of_posture hp.posture) hxc hG
    · obtain ⟨p, hpt, hlp⟩ := hlive
      have hk₁ : Kinship i k₁ (G₀ ++ [g] ++ [.drain i]) :=
        hk.calm (.of_posture hp.posture) hxc hG
      refine Kinship.kin (hk₁.create ?_ ?_ ?_ (Or.inr hGF)) (.of_posture rfl)
      · intro u q hq
        rw [hun.nextTask]
        exact (ho.tasks (hp.posture ▸ hq)).number
      · intro u q hq hl c hc
        rw [hp.posture] at hq ⊢
        obtain ⟨r, hr, -⟩ := (ho.tasks hq).children hl c hc
        exact ⟨r, hr⟩
      · intro u hu
        cases hu
        exact ⟨p, by rw [hp.posture, hpt], hlp⟩

/-- Tasks become terminal, and the children that this leaves behind are about to be cancelled. -/
theorem Kinship.fell (h : Kinship i k F)
    (old : ∀ {t p'}, k'.posture t = some p' → ∃ p, k.posture t = some p ∧ p'.parent = p.parent ∧
      p'.detached = p.detached ∧ p'.children = p.children ∧
      (p'.status.isTerminal = false → p.status.isTerminal = false))
    (hup : ∀ {c q r}, k'.Live c → k.posture q = some r → r.status.isTerminal = false →
      c ∈ r.children → k'.Live q ∨ .cancel i c ∈ F')
    (hc : ∀ c, k'.Live c → .cancel i c ∈ F → .cancel i c ∈ F')
    (hr : ∀ y ∈ F', ∀ {t}, y.Completes t → ∃ z ∈ F, z.Completes t) : Kinship i k' F' where
  below hp hq := by
    obtain ⟨p, hp, h1, -⟩ := old hp
    exact h.below hp (h1 ▸ hq)
  nodup hp hl := by
    obtain ⟨p, hp, -, -, h3, h4⟩ := old hp
    exact h3 ▸ h.nodup hp (h4 hl)
  listed hp hq hd hr hl := by
    obtain ⟨p, hp, h1, h2, -⟩ := old hp
    obtain ⟨r, hr, -, -, h3, h4⟩ := old hr
    exact h3 ▸ h.listed hp (h1 ▸ hq) (h2 ▸ hd) hr (h4 hl)
  upheld {c p' q} hp' hl hq hd := by
    obtain ⟨p, hp, h1, h2, -, h4⟩ := old hp'
    rcases h.upheld hp (h4 hl) (h1 ▸ hq) (h2 ▸ hd) with ⟨r, hr, hlr⟩ | hm
    · exact hup ⟨p', hp', hl⟩ hr hlr (h.listed hp (h1 ▸ hq) (h2 ▸ hd) hr hlr)
    · exact Or.inr (hc c ⟨p', hp', hl⟩ hm)
  ready y hy t p' hyt hp hl := by
    obtain ⟨p, hp, -, -, h3, h4⟩ := old hp
    obtain ⟨z, hz, hzt⟩ := hr y hy hyt
    exact h3 ▸ h.ready z hz hzt hp (h4 hl)

theorem Begins.kin {k₀ : Core} {expected : Option EffectId} {signal : Option Signal}
    (h : Begins i k₀ t expected signal k' G) :
    k₀.Kin k' ∧ ∀ y ∈ G, ∀ u, ¬ y.Completes u := by
  have henter : ∀ {p}, k₀.posture t = some p → p.status.isTerminal = false →
      k₀.Kin (k₀.enterTurn t) := by
    intro p hp hl
    have hrun : k₀.Kin (k₀.alter t fun p => { p with hasBody := false, status := .running }) := by
      refine Core.kin_alter k₀ t fun q hq => ⟨rfl, rfl, rfl, ?_⟩
      rw [hp] at hq
      cases hq
      rw [hl]
      rfl
    exact hrun.trans (.of_posture rfl)
  cases h with
  | skip => exact ⟨.of_posture rfl, fun y hy => by cases hy⟩
  | poll hp hl =>
    refine ⟨henter hp hl, fun y hy u => ?_⟩
    rw [List.mem_singleton.1 hy]
    exact id
  | leave hp hl =>
    refine ⟨henter hp hl, fun y hy u => ?_⟩
    rw [List.mem_singleton.1 hy]
    exact id

/-- What the driver and the ends of tasks leave behind. -/
theorem Does.kinship_rest (h : Does i past x k k' G D es) (hx : x.turn? = none)
    (ho : Orderly i k (x :: F)) (hk : Kinship i k (x :: F)) : Kinship i k' (G ++ F) := by
  have hrel := ho.frames x List.mem_cons_self
  have hF : ∀ c, .cancel i c ∈ x :: F → x ≠ .cancel i c → .cancel i c ∈ F := by
    intro c hm hne
    rcases List.mem_cons.1 hm with hm | hm
    · exact absurd hm.symm hne
    · exact hm
  have hone : ∀ {y : Instr}, (∀ u, ¬ y.Completes u) → ∀ z ∈ [y], ∀ u, ¬ z.Completes u := by
    intro y hy z hz
    rw [List.mem_singleton.1 hz]
    exact hy
  cases h with
  | rest | settle | schedule | forwarded | returnedLate | abortLate | abortHalts | cascadeLate =>
    exact hk.calm (.of_posture rfl) (fun c _ he => by cases he) fun y hy => by cases hy
  | emit | forwardedCall | cascadeAbort =>
    exact hk.calm (.of_posture rfl) (fun c _ he => by cases he) (hone fun _ => id)
  | next =>
    refine hk.calm (.of_posture rfl) (fun c _ he => by cases he) fun y hy u => ?_
    simp only [List.mem_cons, List.not_mem_nil, or_false] at hy
    rcases hy with rfl | rfl <;> exact id
  | errand hG =>
    refine hk.calm (.of_posture rfl) (fun c _ he => by cases he) fun y hy u hyu => ?_
    rcases hG with rfl | ⟨g, rfl, hg⟩
    · cases hy
    · rw [List.mem_singleton.1 hy] at hyu
      cases g with
      | emit | forwarded | schedule => exact hyu
      | _ => exact hg.elim
  | start hb | resume hb =>
    obtain ⟨h1, h2⟩ := hb.kin
    exact hk.calm h1 (fun c _ he => by cases he) h2
  | @wake _ x signal u _ _ hn hw hb =>
    obtain ⟨h1, h2⟩ := hb.kin
    refine hk.calm (Core.Kin.trans ?_ h1) (fun c _ he => by cases he) h2
    exact .of_posture rfl
  | @returned _ t v p hp hl hc =>
    refine Kinship.kin (k := k) (hk.frames ?_ ?_)
      (Core.kin_alter k t fun _ _ => ⟨rfl, rfl, rfl, rfl⟩)
    · exact fun c _ hm => List.mem_append_right _ (hF c hm fun he => by cases he)
    · intro y hy u hyu
      rcases List.mem_append.1 hy with hy | hy
      · right
        rw [List.mem_singleton.1 hy] at hyu
        have hut : t = u := hyu
        subst hut
        intro q hq _
        rw [hp] at hq
        cases hq
        exact hc
      · exact Or.inl ⟨y, List.mem_cons_of_mem _ hy, hyu⟩
  | @returnedHeld _ t v p hp hl hc =>
    refine hk.calm (Core.kin_alter k t fun q hq => ⟨rfl, rfl, rfl, ?_⟩)
      (fun c _ he => by cases he) fun y hy => by cases hy
    rw [hp] at hq
    cases hq
    rw [hl]
    rfl
  | @abort _ t f p hp hl =>
    refine hk.fell ?_ ?_ ?_ ?_
    · intro u q hq
      simp only [Core.withdraw, Core.posture_alter] at hq
      split at hq
      · rename_i hut
        subst hut
        obtain ⟨r, hr, rfl⟩ := Option.map_eq_some_iff.1 hq
        exact ⟨r, hr, rfl, rfl, rfl, fun he => by cases he⟩
      · exact ⟨q, hq, rfl, rfl, rfl, id⟩
    · intro c q r _ hr hlr hc
      by_cases hqt : q = t
      · subst hqt
        rw [hp] at hr
        cases hr
        refine Or.inr (List.mem_append_left _ (List.mem_append_left _ ?_))
        exact List.mem_map_of_mem hc
      · exact Or.inl ⟨r, by simpa [Core.withdraw, hqt] using hr, hlr⟩
    · exact fun c _ hm => List.mem_append_right _ (hF c hm fun he => by cases he)
    · intro y hy u hyu
      rcases List.mem_append.1 hy with hy | hy
      · exfalso
        rcases List.mem_append.1 hy with hy | hy
        · obtain ⟨c, -, rfl⟩ := List.mem_map.1 hy
          exact hyu
        · rw [List.mem_singleton.1 hy] at hyu
          exact hyu
      · exact ⟨y, List.mem_cons_of_mem _ hy, hyu⟩
  | @abortDone _ t f _ c _ hb =>
    have hk' : Kinship i k F := hk.frames (fun c _ hm => hF c hm fun he => by cases he)
      fun y hy u hyu => Or.inl ⟨y, List.mem_cons_of_mem _ hy, hyu⟩
    obtain ⟨h1, h2⟩ := hk'.buries (fun p hp hl => by rw [(hrel.2 p hp).1] at hl; cases hl) hb
    exact h1.cascades h2
  | @conclude _ t _ c _ hb =>
    have hk' : Kinship i k F := hk.frames (fun c _ hm => hF c hm fun he => by cases he)
      fun y hy u hyu => Or.inl ⟨y, List.mem_cons_of_mem _ hy, hyu⟩
    have hk' : Kinship i { k with halted := none } F := hk'.kin (.of_posture rfl)
    obtain ⟨h1, h2⟩ := hk'.buries
      (fun p hp hl => by rw [(hrel.2 p hp).1] at hl; cases hl) hb
    exact h1.cascades h2
  | @cascadeComplete _ t p v _ c _ hp hl hv hb =>
    have hnil := hk.ready _ List.mem_cons_self (t := t) rfl hp hl
    have hk' : Kinship i k F := hk.frames (fun c _ hm => hF c hm fun he => by cases he)
      fun y hy u hyu => Or.inl ⟨y, List.mem_cons_of_mem _ hy, hyu⟩
    have hk' : Kinship i (k.alter t fun p => { p with result := none }) F :=
      hk'.kin (Core.kin_alter k t fun _ _ => ⟨rfl, rfl, rfl, rfl⟩)
    obtain ⟨h1, h2⟩ := hk'.buries (fun q hq _ => by
      rw [Core.posture_alter, if_pos rfl, hp] at hq
      cases hq
      exact hnil) hb
    exact h1.cascades h2
  | cancelLate hl =>
    refine hk.calm (.of_posture rfl) ?_ fun y hy => by cases hy
    rintro c hlc he
    cases he
    exact hl hlc
  | @cancel _ t order hl ho ht hc =>
    have hlive : ∀ {u}, (k.cancelAll order).Live u → u ∉ order ∧ k.Live u := by
      rintro u ⟨q, hq, hlq⟩
      rw [Core.posture_cancelAll] at hq
      obtain ⟨r, hr, rfl⟩ := Option.map_eq_some_iff.1 hq
      split at hlq
      · cases hlq
      · rename_i hu
        exact ⟨hu, r, hr, hlq⟩
    refine hk.fell ?_ ?_ ?_ ?_
    · intro u q hq
      rw [Core.posture_cancelAll] at hq
      obtain ⟨r, hr, rfl⟩ := Option.map_eq_some_iff.1 hq
      split
      · exact ⟨r, hr, rfl, rfl, rfl, fun he => by cases he⟩
      · exact ⟨r, hr, rfl, rfl, rfl, id⟩
    · intro c q r hlc hr hlr hcr
      obtain ⟨hco, hlc⟩ := hlive hlc
      have hqo : q ∉ order := fun hq => hco (hc q hq r hr c hcr hlc)
      exact Or.inl ⟨r, by simp [Core.posture_cancelAll, hr, hqo], hlr⟩
    · intro c hlc hm
      refine List.mem_append_right _ (hF c hm ?_)
      rintro he
      cases he
      exact (hlive hlc).1 ht
    · intro y hy u hyu
      rcases List.mem_append.1 hy with hy | hy
      · rw [List.mem_singleton.1 hy] at hyu
        cases hyu
      · exact ⟨y, List.mem_cons_of_mem _ hy, hyu⟩
  | @cancelledAll _ cascades =>
    refine hk.frames (fun c _ hm => List.mem_append_right _ (hF c hm fun he => by cases he)) ?_
    intro y hy u hyu
    left
    rcases List.mem_append.1 hy with hy | hy
    · obtain ⟨c, hc, rfl⟩ := List.mem_map.1 hy
      cases c with
      | abort => exact hyu.elim
      | complete v =>
        have hvu : v = u := hyu
        subst hvu
        exact ⟨_, List.mem_cons_self, hc⟩
    · exact ⟨y, List.mem_cons_of_mem _ hy, hyu⟩
  | @cancelledLate _ t rest cascades =>
    exact hk.handOn (fun c he => by cases he) id
  | @cancelEach _ t rest cascades p hp =>
    have hk' : Kinship i k ([.cancelOne ⟨i, t⟩ (decide (k.current = some t)) rest cascades] ++ F) :=
      hk.handOn (fun c he => by cases he) id
    have hk' := hk'.kin (Core.kin_alter k t (f := fun p => { p with pending := none, hasBody := false })
      fun _ _ => ⟨rfl, rfl, rfl, rfl⟩)
    exact hk'.kin (.of_posture rfl)
  | @cancelHalts _ t rest cascades =>
    have hk' : Kinship i k ([.cancelEach i rest cascades] ++ F) :=
      hk.handOn (fun c he => by cases he) id
    exact hk'.kin (.of_posture rfl)
  | @cancelOne _ t rest cascades k' c es hb =>
    have hk' : Kinship i k ([.cancelEach i rest cascades] ++ F) :=
      hk.handOn (fun c he => by cases he) id
    obtain ⟨h1, h2⟩ := hk'.buries
      (fun p hp hl => by rw [(hrel.1.2 p hp).1] at hl; cases hl) hb
    refine h1.frames ?_ ?_
    · intro d _ hm
      rcases List.mem_append.1 hm with hm | hm
      · cases List.mem_singleton.1 hm
      · exact List.mem_append_right _ hm
    · intro y hy u hyu
      rcases List.mem_append.1 hy with hy | hy
      · rw [List.mem_singleton.1 hy] at hyu
        rcases List.mem_append.1 (show Cascade.complete u ∈ cascades ++ c.toList from hyu) with
          hm | hm
        · exact Or.inl ⟨_, List.mem_append_left _ List.mem_cons_self, hm⟩
        · exact Or.inr fun p hp _ => h2 u p (Option.mem_toList.1 hm) hp
      · exact Or.inl ⟨y, List.mem_append_right _ hy, hyu⟩
  | _ => cases hx

theorem Drives.kinship {work : List Instr} (h : Drives i k work k' G) (hk : Kinship i k F)
    (hw : ∀ y ∈ work, ∀ u, ¬ y.Completes u) : Kinship i k' (G ++ F) := by
  have hadd : ∀ {G}, (∀ y ∈ G, ∀ u, ¬ y.Completes u) → Kinship i k (G ++ F) := by
    intro G hG
    refine hk.frames (fun c _ hm => List.mem_append_right _ hm) fun y hy u hyu => Or.inl ?_
    rcases List.mem_append.1 hy with hy | hy
    · exact absurd hyu (hG y hy u)
    · exact ⟨y, hy, hyu⟩
  cases h with
  | within => exact hadd hw
  | starts =>
    have hk' := hadd (G := work ++ [.drain i]) fun y hy u => by
      rcases List.mem_append.1 hy with hy | hy
      · exact hw y hy u
      · rw [List.mem_singleton.1 hy]
        exact id
    exact hk'.kin (.of_posture rfl)

theorem Intervenes.kinship (h : Intervenes i past k k' G es) (ho : Orderly i k F)
    (hk : Kinship i k F) : Kinship i k' (G ++ F) := by
  cases h with
  | quietly => exact hk
  | spawns h =>
    refine h.kinship ((hk.create (fun hp => (ho.tasks hp).number) ?_ ?_ (Or.inl rfl)).kin
      (.of_posture rfl)) fun y hy => by cases hy
    · intro u p hp hl c hc
      obtain ⟨q, hq, -⟩ := (ho.tasks hp).children hl c hc
      exact ⟨q, hq⟩
    · intro u hu
      cases hu
  | settles _ h => exact h.kinship (hk.kin (.of_posture rfl)) fun y hy => by cases hy
  | cancels h =>
    refine h.kinship hk fun y hy u => ?_
    rw [List.mem_singleton.1 hy]
    exact id
  | queues => exact hk.kin (.of_posture rfl)
  | @sends a site =>
    have hk' : Kinship i k ([.emit i a (.caller site)] ++ F) := by
      refine hk.frames (fun c _ hm => List.mem_append_right _ hm) fun y hy u hyu => Or.inl ?_
      rcases List.mem_append.1 hy with hy | hy
      · rw [List.mem_singleton.1 hy] at hyu
        exact hyu.elim
      · exact ⟨y, hy, hyu⟩
    exact hk'.kin (.of_posture rfl)

/-- Every move keeps parents and children in step. -/
theorem Kinship.move {v v' : View} (hv : Sound i v) (hk : Kinship i v.core v.frames)
    (h : Moves i v v') : Kinship i v'.core v'.frames := by
  cases h with
  | @does alive k F D past x k' G D' es h hu =>
    have halive : alive = true := by
      cases alive with
      | true => rfl
      | false => cases (hv.framed.dead rfl).1
    cases hx : x.turn? with
    | some t => exact h.kinship_turn hx hv.framed.stack hv.orderly (hv.tabled halive) hk
    | none => exact h.kinship_rest hx hv.orderly hk
  | intervenes h hu => exact h.kinship hv.orderly hk
  | still => exact hk
  | drops hu => exact hk
  | dies hD => exact .start i

end

end SagaMachine
