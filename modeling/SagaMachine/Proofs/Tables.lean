import SagaMachine.Proofs.Orderliness

/-!
# The wait table stays in order

Every move leaves a wait table that belongs to the tasks (`Tabled`). What happens within
the step of a task touches effects of this task only, and leaves a table in which the task
is starting an effect (`Starting`); outside of steps the table changes by settlements and
withdrawals.

Main statements: `Tabled.turn`, `Tabled.prune`, `Tabled.settle`.
-/

namespace SagaMachine

section

variable {i : MiddlewareId} {k k' : Core} {F : List Instr} {x g : Instr} {t : TaskId}
  {past past' : List Event} {new : List EffectId}

theorem looseOf_cons (x : Instr) (F : List Instr) : looseOf (x :: F) = x.loose ++ looseOf F :=
  List.flatMap_cons

theorem Instr.loose_of_plain (h : x.begun? = none) (hn : x.nests = []) : x.loose = [] := by
  simp [loose, h, hn]

/-- The driver has no effects at hand. -/
theorem looseOf_turn (x : Instr) : looseOf [x, .drain i] = x.loose := by
  simp [looseOf, Instr.loose, Instr.begun?, Instr.nests]

/-! ## Frames that start nothing -/

theorem Tabled.tail (h : Tabled k (x :: F) past) (hl : x.begun? = none) (hn : x.nests = []) :
    Tabled k F past where
  forest := by
    have := h.forest
    rwa [looseOf_cons, Instr.loose_of_plain hl hn] at this
  whole hw hy := h.whole hw fun y hyF => by
    rcases List.mem_cons.1 hyF with rfl | hyF
    · simp [hn]
    · exact hy y hyF
  rooted hw ht hy := h.rooted hw ht (by rwa [looseOf_cons, Instr.loose_of_plain hl hn])
  pending hp hx hw := by
    have := h.pending hp hx hw
    rwa [looseOf_cons, Instr.loose_of_plain hl hn] at this
  number := h.number
  parked := h.parked
  named := h.named
  leaf := h.leaf
  frames y hy := h.frames y (List.mem_cons_of_mem _ hy)

theorem Tabled.cons (h : Tabled k F past) (hl : x.begun? = none) (hn : x.nests = [])
    (hs : x.Starts k) : Tabled k (x :: F) past where
  forest := by rw [looseOf_cons, Instr.loose_of_plain hl hn]; exact h.forest
  whole hw hy := h.whole hw fun y hyF => hy y (List.mem_cons_of_mem _ hyF)
  rooted hw ht hy := h.rooted hw ht (by rwa [looseOf_cons, Instr.loose_of_plain hl hn] at hy)
  pending hp hx hw := by
    rw [looseOf_cons, Instr.loose_of_plain hl hn]
    exact h.pending hp hx hw
  number := h.number
  parked := h.parked
  named := h.named
  leaf := h.leaf
  frames y hy := by
    rcases List.mem_cons.1 hy with rfl | hy
    · exact hs
    · exact h.frames y hy

/-- A frame that starts nothing. -/
structure Instr.IsPlain (x : Instr) : Prop where
  begun : x.begun? = none
  nests : x.nests = []
  starts : ∀ k, x.Starts k

theorem Instr.IsPlain.of_turn (h : x.turn? = none) : x.IsPlain := by
  cases x with
  | trigger | answer | cancelDone | begun | leave => cases h
  | _ => exact ⟨rfl, rfl, fun _ => trivial⟩

theorem Tabled.append (h : Tabled k F past) {G : List Instr} (hG : ∀ y ∈ G, y.IsPlain) :
    Tabled k (G ++ F) past := by
  induction G with
  | nil => exact h
  | cons y G ih =>
    have hy := hG y List.mem_cons_self
    exact (ih fun z hz => hG z (List.mem_cons_of_mem _ hz)).cons hy.begun hy.nests (hy.starts k)

/-- Events that trigger nothing. -/
theorem Tabled.events (h : Tabled k F past) {es : List Event}
    (hes : ∀ e ∈ es, ∀ t x p f, e ≠ .triggered t x p f) : Tabled k F (es.reverse ++ past) := by
  have hold : ∀ {t x p f}, .triggered t x p f ∈ es.reverse ++ past → .triggered t x p f ∈ past := by
    intro t x p f hm
    rcases List.mem_append.1 hm with hm | hm
    · exact absurd rfl (hes _ (List.mem_reverse.1 hm) t x p f)
    · exact hm
  refine { h with named := fun hm => h.named (hold hm), leaf := ?_ }
  rintro x w hw ⟨t, p, f, hm, hf⟩
  exact h.leaf hw ⟨t, p, f, hold hm, hf⟩

/-! ## Within the step of a task -/

/-- The table while a task is starting an effect. -/
theorem Tabled.starting (h : Tabled k [x, .drain i] past) (hx : x.turn? = some t)
    (ht : k.Afoot t) : Starting k.waits t x.nests x.begun? where
  forest := by
    have := h.forest
    rwa [looseOf_turn] at this
  whole hw hn := h.whole hw fun y hy => by
    rcases List.mem_cons.1 hy with rfl | hy
    · exact hn
    · rw [List.mem_singleton.1 hy]
      simp [Instr.nests]
  isOpen := by
    have hs := h.frames x List.mem_cons_self
    cases x with
    | trigger => cases hx; exact hs
    | answer | cancelDone => cases hx; exact hs.1
    | begun turn b nests start =>
      cases hx
      cases start with
      | pending => exact hs.1
      | _ => exact hs
    | _ => trivial
  latest {y} hy := by
    have hs := h.frames x List.mem_cons_self
    cases x with
    | begun turn b nests start =>
      cases hx
      cases start with
      | pending =>
        cases hy
        exact ⟨hs.2.1, hs.2.2.2⟩
      | _ => cases hy
    | leave turn b exit =>
      cases hx
      cases exit with
      | suspended =>
        cases hy
        exact ⟨hs.1, hs.2.2⟩
      | _ => cases hy
    | _ => cases hy
  roots {y w} hw hwt hl := by
    by_contra hn
    obtain ⟨p, hp, hb, -⟩ := h.rooted hw hl (by rwa [looseOf_turn])
    rw [hwt] at hp
    rw [(ht.2 p hp).1] at hb
    cases hb

/-- What a move within the step of a task does. -/
structure Turns (k : Core) (past : List Event) (t : TaskId) (k' : Core) (g : Instr)
    (es : List Event) (new : List EffectId) : Prop where
  posture : k'.posture = k.posture
  count : k.nextEffect ≤ k'.nextEffect
  turn : g.turn? = some t
  starting : Starting k'.waits t g.nests g.begun?
  starts : g.Starts k'
  touches : k.waits.Touches k'.waits t new
  unused : ∀ y ∈ new, k.Unused y ∧ y < k'.nextEffect
  leaf : ∀ y ∈ new, ∀ w, k'.waits.get? y = some w → LeafName (es.reverse ++ past) y → w.kind.IsLeaf
  names : ∀ {t y p e}, .triggered t y p e ∈ es → k.nextEffect ≤ y ∧ y < k'.nextEffect

/-- The table stays in order within the step of a task. -/
theorem Tabled.turn {es : List Event} (h : Tabled k [x, .drain i] past) (hx : x.turn? = some t)
    (ht : k.Afoot t) (hs : Turns k past t k' g es new) :
    Tabled k' [g, .drain i] (es.reverse ++ past) := by
  have hstart := h.starting hx ht
  refine ⟨?_, ?_, ?_, ?_, ?_, ?_, ?_, ?_, ?_⟩
  · rw [looseOf_turn]
    exact hs.starting.forest
  · intro y w hw hy
    exact hs.starting.whole hw (hy g List.mem_cons_self)
  · intro y w hw hl hy
    rw [looseOf_turn] at hy
    have hne : w.task ≠ t := fun hwt => hy (hs.starting.roots hw hwt hl)
    rcases hs.touches.old hw with ⟨-, hwt⟩ | ⟨w', hw', hwt, hwl, -⟩
    · exact absurd hwt hne
    · have hy' : y ∉ looseOf [x, .drain i] := by
        rw [looseOf_turn]
        intro hy'
        obtain ⟨w'', hw'', ht''⟩ := hstart.task_of_loose hy'
        rw [hw'] at hw''
        cases hw''
        exact hne (hwt.symm.trans ht'')
      obtain ⟨p, hp, hb, hpend⟩ := h.rooted hw' (hwl.trans hl) hy'
      rw [hs.posture, ← hwt]
      exact ⟨p, hp, hb, hpend⟩
  · intro u p y w hp hpend hw
    rw [hs.posture] at hp
    rcases hs.touches.old hw with ⟨hy, -⟩ | ⟨w', hw', hwt, hwl, -⟩
    · exact absurd hpend ((hs.unused y hy).1 u p hp)
    · obtain ⟨h1, h2, h3⟩ := h.pending hp hpend hw'
      refine ⟨hwt.symm.trans h1, hwl.symm.trans h2, ?_⟩
      have hut : u ≠ t := by
        rintro rfl
        rw [looseOf_turn] at h3
        exact h3 (hstart.roots hw' h1 h2)
      rw [looseOf_turn]
      intro hy
      obtain ⟨w'', hw'', ht''⟩ := hs.starting.task_of_loose hy
      rw [hw] at hw''
      cases hw''
      exact hut (h1.symm.trans (hwt.trans ht''))
  · intro y w hw
    rcases hs.touches.old hw with ⟨hy, -⟩ | ⟨w', hw', -⟩
    · exact (hs.unused y hy).2
    · exact Nat.lt_of_lt_of_le (h.number hw') hs.count
  · intro u p y hp hpend
    rw [hs.posture] at hp
    exact Nat.lt_of_lt_of_le (h.parked hp hpend) hs.count
  · intro u y p e hm
    rcases List.mem_append.1 hm with hm | hm
    · exact (hs.names (List.mem_reverse.1 hm)).2
    · exact Nat.lt_of_lt_of_le (h.named hm) hs.count
  · intro y w hw hl
    rcases hs.touches.old hw with ⟨hy, -⟩ | ⟨w', hw', -, -, hk⟩
    · exact hs.leaf y hy w hw hl
    · refine hk (h.leaf hw' ?_)
      obtain ⟨u, p, e, hm, he⟩ := hl
      rcases List.mem_append.1 hm with hm | hm
      · have := (hs.names (List.mem_reverse.1 hm)).1
        exact absurd (h.number hw') (Nat.not_lt_of_le this)
      · exact ⟨u, p, e, hm, he⟩
  · intro y hy
    rcases List.mem_cons.1 hy with rfl | hy
    · exact hs.starts
    · rw [List.mem_singleton.1 hy]
      trivial

/-! ## Changes of tasks -/

theorem Instr.Starts.mono (h : x.Starts k) (hn : k.nextEffect ≤ k'.nextEffect)
    (hu : ∀ y, k.Unused y → k'.Unused y)
    (hkept : ∀ {y w}, k.waits.get? y = some w → y ∈ x.loose → k'.waits.get? y = some w)
    (hgone : ∀ {y}, k.waits.get? y = none → y < k.nextEffect → k'.waits.get? y = none) :
    x.Starts k' := by
  have hopen : ∀ {t nests}, x.nests = nests → Open k.waits t nests → Open k'.waits t nests := by
    rintro t nests rfl h
    refine h.congr fun m hm => ?_
    obtain ⟨w, hw, -⟩ := h.exists_get? hm
    rw [hw]
    exact hkept hw (List.mem_append_right _ (List.mem_map_of_mem hm))
  have hadrift : ∀ {t nests y}, x.begun? = some y → k.Adrift t nests y → k'.Adrift t nests y := by
    rintro t nests y hy ⟨hi, hunused, w, hw, ht⟩
    refine ⟨hi, hu y hunused, w, hkept hw (List.mem_append_left _ ?_), ht⟩
    exact Option.mem_toList.2 hy
  cases x with
  | trigger => exact hopen rfl h
  | answer | cancelDone =>
    obtain ⟨ho, hi, hunused, hlt, hw⟩ := h
    exact ⟨hopen rfl ho, hi, hu _ hunused, Nat.lt_of_lt_of_le hlt hn, hgone hw hlt⟩
  | begun turn b nests start =>
    cases start with
    | pending y => exact ⟨hopen rfl h.1, hadrift rfl h.2⟩
    | _ => exact hopen rfl h
  | leave turn b exit =>
    cases exit with
    | suspended y => exact hadrift rfl h
    | _ => trivial
  | _ => trivial

/-- Tasks change, but those that are parked on an effect of the table. -/
theorem Tabled.repose (h : Tabled k F past) (hw : k'.waits = k.waits)
    (hn : k'.nextEffect = k.nextEffect)
    (hold : ∀ {t p' x}, k'.posture t = some p' → p'.pending = some x →
      ∃ p, k.posture t = some p ∧ p.pending = some x)
    (hroot : ∀ {t p x w}, k.waits.get? x = some w → w.link = .task → w.task = t →
      k.posture t = some p → p.hasBody = true → p.pending = some x →
      ∃ p', k'.posture t = some p' ∧ p'.hasBody = true ∧ p'.pending = some x) :
    Tabled k' F past where
  forest := hw ▸ h.forest
  whole := hw ▸ h.whole
  rooted {y w} hy hl hn := by
    rw [hw] at hy
    obtain ⟨p, hp, hb, hpend⟩ := h.rooted hy hl hn
    exact hroot hy hl rfl hp hb hpend
  pending {t p y w} hp hpend hy := by
    obtain ⟨q, hq, hqy⟩ := hold hp hpend
    exact h.pending hq hqy (hw ▸ hy)
  number hy := hn ▸ h.number (hw ▸ hy)
  parked hp hpend := by
    obtain ⟨q, hq, hqy⟩ := hold hp hpend
    exact hn ▸ h.parked hq hqy
  named hm := hn ▸ h.named hm
  leaf hy := h.leaf (hw ▸ hy)
  frames y hy := by
    refine (h.frames y hy).mono (Nat.le_of_eq hn.symm) ?_ ?_ ?_
    · intro z hz t p hp hpend
      obtain ⟨q, hq, hqz⟩ := hold hp hpend
      exact hz t q hq hqz
    · intro z w hz _
      rw [hw]
      exact hz
    · intro z hz _
      rw [hw]
      exact hz

/-- Nothing changes that the table has to do with. -/
theorem Tabled.congr (h : Tabled k F past) (hp : k'.posture = k.posture)
    (hw : k'.waits = k.waits) (hn : k'.nextEffect = k.nextEffect) : Tabled k' F past := by
  refine h.repose hw hn ?_ ?_
  · intro t p' x h1 h2
    exact ⟨p', hp ▸ h1, h2⟩
  · intro t p x w _ _ _ h1 h2 h3
    exact ⟨p, hp ▸ h1, h2, h3⟩

/-- A task changes that keeps what it is parked on, and its body. -/
theorem Tabled.alter (h : Tabled k F past) (t : TaskId) {f : Posture → Posture}
    (hf : ∀ p, (f p).pending = p.pending) (hb : ∀ p, p.hasBody = true → (f p).hasBody = true) :
    Tabled (k.alter t f) F past := by
  refine h.repose rfl rfl ?_ ?_
  · intro u p' x hp hx
    rw [Core.posture_alter] at hp
    split at hp
    · obtain ⟨p, hq, rfl⟩ := Option.map_eq_some_iff.1 hp
      rename_i hut
      exact ⟨p, hut ▸ hq, hf p ▸ hx⟩
    · exact ⟨p', hp, hx⟩
  · intro u p x w _ _ _ hp hpb hpx
    rw [Core.posture_alter]
    split
    · rename_i hut
      subst hut
      exact ⟨f p, by rw [hp]; rfl, hb p hpb, (hf p).trans hpx⟩
    · exact ⟨p, hp, hpb, hpx⟩

theorem Tabled.cancelAll (h : Tabled k F past) (order : List TaskId) :
    Tabled (k.cancelAll order) F past := by
  unfold Core.cancelAll
  induction order generalizing k with
  | nil => exact h
  | cons t order ih =>
    refine ih (h.alter t (fun p => ?_) fun p hp => ?_)
    · rfl
    · exact hp

/-- A new task is not parked. -/
theorem Tabled.create (h : Tabled k F past) (hk : ∀ {t p}, k.posture t = some p → t < k.nextTask)
    (parent : Option TaskId) (detached : Bool) : Tabled (k.create parent detached) F past := by
  have hadd : Tabled { k.add k.nextTask (.fresh parent detached) with nextTask := k.nextTask + 1 }
      F past := by
    refine h.repose rfl rfl ?_ ?_
    · intro t p' x hp hx
      simp only [Core.posture_add] at hp
      split at hp
      · cases hp
        cases hx
      · exact ⟨p', hp, hx⟩
    · intro t p x w _ _ _ hp hb hx
      refine ⟨p, ?_, hb, hx⟩
      simp only [Core.posture_add]
      rw [if_neg (Nat.ne_of_lt (hk hp)), hp]
  unfold Core.create
  simp only
  split
  · refine hadd.alter _ (fun p => ?_) fun p hp => ?_
    · rfl
    · exact hp
  · exact hadd

/-- A task without its body is gone. -/
theorem Tabled.bury (h : Tabled k F past) (t : TaskId)
    (ht : ∀ p, k.posture t = some p → p.hasBody = false) : Tabled (k.bury t) F past := by
  have hk : (k.bury t).waits = k.waits ∧ (k.bury t).nextEffect = k.nextEffect := by
    rw [k.bury_eq]
    exact ⟨rfl, rfl⟩
  refine h.repose hk.1 hk.2 ?_ ?_
  · intro u p' x hp hx
    rw [Core.posture_bury] at hp
    split at hp
    · cases hp
    · obtain ⟨p, hq, rfl⟩ := Option.map_eq_some_iff.1 hp
      refine ⟨p, hq, ?_⟩
      rw [k.shed_eq] at hx
      exact hx
  · intro u p x w _ _ _ hp hb hx
    have hut : u ≠ t := by
      rintro rfl
      rw [ht p hp] at hb
      cases hb
    refine ⟨k.shed t u p, ?_, ?_, ?_⟩
    · rw [Core.posture_bury, if_neg hut, hp]
      rfl
    · rw [k.shed_eq]
      exact hb
    · rw [k.shed_eq]
      exact hx

/-! ## Withdrawals and settlements -/

/-- The effects that frames have at hand belong to the task that is stepped. -/
theorem Tabled.task_of_loose (h : Tabled k F past) {d : Option TaskId} (hs : Stack i d F)
    {y : EffectId} (hy : y ∈ looseOf F) :
    ∃ t w, d = some t ∧ k.waits.get? y = some w ∧ w.task = t := by
  obtain ⟨x, hx, hy⟩ := List.mem_flatMap.1 hy
  have hstarts := h.frames x hx
  have hturn : ∃ t, x.turn? = some t ∧ ∃ w, k.waits.get? y = some w ∧ w.task = t := by
    rcases List.mem_append.1 hy with hy | hy
    · have hy' := Option.mem_toList.1 hy
      cases x with
      | begun turn b nests start =>
        cases start with
        | pending =>
          cases hy'
          obtain ⟨-, -, -, w, hw, ht, -⟩ := hstarts
          exact ⟨_, rfl, w, hw, ht⟩
        | _ => cases hy'
      | leave turn b exit =>
        cases exit with
        | suspended =>
          cases hy'
          obtain ⟨-, -, w, hw, ht, -⟩ := hstarts
          exact ⟨_, rfl, w, hw, ht⟩
        | _ => cases hy'
      | _ => cases hy'
    · obtain ⟨n, hn, rfl⟩ := List.mem_map.1 hy
      cases x with
      | trigger => exact ⟨_, rfl, hstarts.exists_get? hn⟩
      | answer | cancelDone => exact ⟨_, rfl, hstarts.1.exists_get? hn⟩
      | begun turn b nests start =>
        cases start with
        | pending => exact ⟨_, rfl, hstarts.1.exists_get? hn⟩
        | _ => exact ⟨_, rfl, hstarts.exists_get? hn⟩
      | _ => cases hn
  obtain ⟨t, hxt, w, hw, ht⟩ := hturn
  exact ⟨t, w, hs.turn_unique hx hxt, hw, ht⟩

theorem Waits.detach_of_absent {waits : Waits} {x : EffectId} (h : waits.get? x = none) :
    (waits.detach [x]).2 = waits := by
  unfold Waits.detach
  split
  · unfold Waits.detach
    rfl
  · rename_i w hw
    rw [h] at hw
    cases hw

/-- A root can be regarded as loose. -/
theorem Waits.Forest.loosen {waits : Waits} {loose : List EffectId} {x : EffectId} {w : Wait}
    (hF : Waits.Forest waits loose .task) (hx : waits.get? x = some w) (hl : w.link = .task) :
    Waits.Forest waits (x :: loose) .task where
  up hy hn p hp := hF.up hy (fun h => hn (List.mem_cons_of_mem _ h)) hp
  down {p pw} hp link y hlink hne hm := by
    obtain ⟨hyl, hlt, wy, hwy, hwl, hwt⟩ := hF.down hp hlink hne hm
    refine ⟨?_, hlt, wy, hwy, hwl, hwt⟩
    rw [List.mem_cons, not_or]
    refine ⟨?_, hyl⟩
    rintro rfl
    rw [hx] at hwy
    cases hwy
    rw [← hwl, hl] at hlink
    cases hlink
  gap _ h := by cases h

/-- What a task is parked on is withdrawn. -/
theorem Tabled.withdraw (h : Tabled k F past) (hs : Stack i k.current F)
    (hd : ∀ {u}, k.current = some u → k.Afoot u) {p : Posture} {y : EffectId}
    (hp : k.posture t = some p) (hy : p.pending = some y) :
    Tabled (k.withdraw [y]) F past ∧ (k.withdraw [y]).waits.get? y = none ∧
      ∀ {z w}, k.waits.get? z = some w → w.task ≠ t → (k.withdraw [y]).waits.get? z = some w := by
  have hgone : (k.withdraw [y]).waits.get? y = none :=
    Waits.get?_detach_of_mem List.mem_cons_self
  cases hw : k.waits.get? y with
  | none =>
    have hsame : (k.withdraw [y]).waits = k.waits := Waits.detach_of_absent hw
    refine ⟨h.congr rfl hsame rfl, hgone, fun hz _ => ?_⟩
    rw [hsame]
    exact hz
  | some w =>
    obtain ⟨ht, hl, hloose⟩ := h.pending hp hy hw
    have hpr : k.waits.Prunes t y (k.withdraw [y]).waits := by
      refine Waits.prunes_detach fun {w'} hw' => ?_
      rw [hw] at hw'
      cases hw'
      exact ht
    have hF := h.forest.loosen hw hl
    obtain ⟨q, hq, hb, -⟩ := h.rooted hw hl hloose
    have hkept : ∀ {z wz}, k.waits.get? z = some wz → z ∈ looseOf F →
        (k.withdraw [y]).waits.get? z = some wz := by
      intro z wz hz hzl
      obtain ⟨u, wu, hu, hwu, hut⟩ := h.task_of_loose hs hzl
      rw [hz] at hwu
      cases hwu
      refine hpr.kept hF hz (Or.inl ?_)
      rintro hzt
      rw [ht] at hq
      rw [((hd (hu.trans (congrArg some (hut.symm.trans hzt)))).2 q hq).1] at hb
      cases hb
    refine ⟨⟨hpr.forest hF, ?_, ?_, ?_, ?_, h.parked, h.named, ?_, ?_⟩, hgone, ?_⟩
    · exact fun hz => h.whole (hpr.sub hz).2
    · exact fun hz => h.rooted (hpr.sub hz).2
    · exact fun hp hx hz => h.pending hp hx (hpr.sub hz).2
    · exact fun hz => h.number (hpr.sub hz).2
    · exact fun hz => h.leaf (hpr.sub hz).2
    · intro x hx
      refine (h.frames x hx).mono (Nat.le_refl _) (fun _ hu => hu) ?_ ?_
      · exact fun hz hzl => hkept hz (List.mem_flatMap.2 ⟨x, hx, hzl⟩)
      · intro z hz _
        cases hz' : (k.withdraw [y]).waits.get? z with
        | none => rfl
        | some wz =>
          rw [(hpr.sub hz').2] at hz
          cases hz
    · exact fun hz hne => hpr.kept hF hz (Or.inl hne)

/-- A task changes that is parked on nothing in the table. -/
theorem Tabled.unpark (h : Tabled k F past) {f : Posture → Posture}
    (hroot : ∀ {p y}, k.posture t = some p → p.pending = some y → k.waits.get? y = none)
    (hf : ∀ p, (f p).pending = none ∨ (f p).pending = p.pending) :
    Tabled (k.alter t f) F past := by
  refine h.repose rfl rfl ?_ ?_
  · intro u p' x hp hx
    rw [Core.posture_alter] at hp
    split at hp
    · obtain ⟨p, hq, rfl⟩ := Option.map_eq_some_iff.1 hp
      rename_i hut
      refine ⟨p, hut ▸ hq, ?_⟩
      rcases hf p with hn | hn
      · rw [hn] at hx
        cases hx
      · rw [← hn]
        exact hx
    · exact ⟨p', hp, hx⟩
  · intro u p x w hw _ _ hp hpb hpx
    have hut : u ≠ t := by
      rintro rfl
      rw [hroot hp hpx] at hw
      cases hw
    exact ⟨p, by rw [Core.posture_alter, if_neg hut, hp], hpb, hpx⟩

/-- A task is stripped of what it is parked on, and of its body. -/
theorem Tabled.strip (h : Tabled k F past) (hs : Stack i k.current F)
    (hd : ∀ {u}, k.current = some u → k.Afoot u) {p : Posture} (hp : k.posture t = some p)
    {f : Posture → Posture} (hf : ∀ p, (f p).pending = none) :
    Tabled ((k.alter t f).withdraw p.pending.toList) F past ∧
      ∀ {z w}, k.waits.get? z = some w → w.task ≠ t →
        ((k.alter t f).withdraw p.pending.toList).waits.get? z = some w := by
  cases hy : p.pending with
  | none =>
    have hsame : (k.withdraw []).waits = k.waits := by
      unfold Core.withdraw Waits.detach
      rfl
    have h' : Tabled (k.alter t f) F past := by
      refine h.unpark (fun hp' hx => ?_) fun q => Or.inl (hf q)
      rw [hp] at hp'
      cases hp'
      rw [hy] at hx
      cases hx
    refine ⟨h'.congr rfl hsame rfl, fun hz _ => ?_⟩
    show (k.withdraw []).waits.get? _ = _
    rw [hsame]
    exact hz
  | some y =>
    obtain ⟨h', hgone, hkept⟩ := h.withdraw hs hd hp hy
    refine ⟨h'.unpark (t := t) (f := f) ?_ fun q => Or.inl (hf q), hkept⟩
    intro q z hq hz
    have hq : k.posture t = some q := hq
    rw [hp] at hq
    cases hq
    rw [hy] at hz
    cases hz
    exact hgone

/-- A body is parked on the effect that was started for it. -/
theorem Tabled.park {b : Body} {y : EffectId}
    (h : Tabled k [.leave ⟨i, t⟩ b (.suspended y), .drain i] past) (ht : k.Afoot t)
    (hp : ∃ p, k.posture t = some p) : Tabled (k.park t (some y)) [.drain i] past := by
  have hst := h.starting rfl ht
  obtain ⟨-, hun, w, hw, hwt, hwl⟩ := h.frames _ List.mem_cons_self
  obtain ⟨p, hp⟩ := hp
  have hloose : looseOf [Instr.leave ⟨i, t⟩ b (.suspended y), .drain i] = [y] := by
    rw [looseOf_turn]
    rfl
  have hrestless : looseOf [Instr.drain i] = [] := rfl
  have hpark : ∀ {u q}, (k.park t (some y)).posture u = some q → u ≠ t → k.posture u = some q := by
    intro u q hq hne
    have : (k.alter t fun p => { p with hasBody := true, pending := some y, status := .suspended }).posture
        u = some q := hq
    rwa [Core.posture_alter, if_neg hne] at this
  have hself : (k.park t (some y)).posture t =
      some { p with hasBody := true, pending := some y, status := .suspended } := by
    show (k.alter t _).posture t = _
    rw [Core.posture_alter, if_pos rfl, hp]
    rfl
  refine ⟨?_, ?_, ?_, ?_, h.number, ?_, h.named, h.leaf, ?_⟩
  · rw [hrestless]
    have hF := h.forest
    rw [hloose] at hF
    refine ⟨?_, ?_, fun _ h => by cases h⟩
    · intro x wx hx _ q hq
      refine hF.up hx ?_ hq
      intro hxy
      have hx : k.waits.get? x = some wx := hx
      rw [List.mem_singleton.1 hxy, hw] at hx
      cases hx
      rw [hwl] at hq
      cases hq
    · intro q qw hq link x hlink hne hm
      obtain ⟨-, h2⟩ := hF.down hq hlink hne hm
      exact ⟨List.not_mem_nil, h2⟩
  · intro x wx hx _
    refine h.whole hx fun z hz => ?_
    rcases List.mem_cons.1 hz with rfl | hz
    · simp [Instr.nests]
    · rw [List.mem_singleton.1 hz]
      simp [Instr.nests]
  · intro x wx hx hl _
    by_cases hxy : x = y
    · subst hxy
      have hx : k.waits.get? x = some wx := hx
      rw [hw] at hx
      cases hx
      rw [hwt]
      exact ⟨_, hself, rfl, rfl⟩
    · obtain ⟨q, hq, hb, hqx⟩ := h.rooted hx hl (by rw [hloose]; simpa using hxy)
      have hne : wx.task ≠ t := by
        intro hne
        rw [hne] at hq
        rw [(ht.2 q hq).1] at hb
        cases hb
      refine ⟨q, ?_, hb, hqx⟩
      show (k.alter t _).posture wx.task = _
      rw [Core.posture_alter, if_neg hne]
      exact hq
  · intro u q x wx hq hx hwx
    rw [hrestless]
    by_cases hut : u = t
    · subst hut
      rw [hself] at hq
      cases hq
      cases hx
      have hwx : k.waits.get? y = some wx := hwx
      rw [hw] at hwx
      cases hwx
      exact ⟨hwt, hwl, List.not_mem_nil⟩
    · obtain ⟨h1, h2, -⟩ := h.pending (hpark hq hut) hx hwx
      exact ⟨h1, h2, List.not_mem_nil⟩
  · intro u q x hq hx
    by_cases hut : u = t
    · subst hut
      rw [hself] at hq
      cases hq
      cases hx
      exact h.number hw
    · exact h.parked (hpark hq hut) hx
  · intro x hx
    rw [List.mem_singleton.1 hx]
    trivial

/-- Between steps an effect without members settles. -/
theorem Tabled.settle (h : Tabled k [.drain i] past) {y : EffectId} (hy : LeafName past y)
    (signal : Signal) :
    Tabled { k with waits := (Waits.settle k.waits y signal).waits } [.drain i] past ∧
      (∀ {z w}, k.waits.get? z = some w → w.link = .task →
        (∃ u, (Waits.settle k.waits y signal).wakeup = some u ∧ u.effect = z ∧ u.task = w.task) ∨
        ∃ w', (Waits.settle k.waits y signal).waits.get? z = some w' ∧ w'.task = w.task ∧
          w'.link = .task) ∧
      ∀ {u}, (Waits.settle k.waits y signal).wakeup = some u →
        (Waits.settle k.waits y signal).waits.get? u.effect = none ∧
          ∃ w, k.waits.get? u.effect = some w ∧ w.task = u.task ∧ w.link = .task := by
  have hrestless : looseOf [Instr.drain i] = [] := rfl
  have hwhole : ∀ {z w}, k.waits.get? z = some w → w.kind.Whole := fun hz => h.whole hz fun z hz => by
    rw [List.mem_singleton.1 hz]
    simp [Instr.nests]
  cases hw : k.waits.get? y with
  | none =>
    rw [Waits.settle_of_absent hw]
    refine ⟨h, fun hz hl => Or.inr ⟨_, hz, rfl, hl⟩, ?_⟩
    intro u hu
    cases hu
  | some w =>
    have hF : Waits.Forest k.waits [] .task := h.forest
    have hs := Waits.settles_settle hF hwhole hw (h.leaf hw hy).members signal
    have hold : ∀ {z wz}, (Waits.settle k.waits y signal).waits.get? z = some wz →
        ∃ w', k.waits.get? z = some w' ∧ w'.task = wz.task ∧ w'.link = wz.link ∧
          (w'.kind.IsLeaf → wz.kind.IsLeaf) := by
      intro z wz hz
      obtain ⟨w', hw', h1⟩ := hs.old hz
      rw [Table.get?_erase] at hw'
      split at hw'
      · cases hw'
      · exact ⟨w', hw', h1⟩
    refine ⟨⟨hs.forest, fun hz _ => hs.whole hz, ?_, ?_, ?_, h.parked, h.named, ?_, ?_⟩, ?_, ?_⟩
    · intro z wz hz hl _
      obtain ⟨w', hw', h1, h2, -⟩ := hold hz
      have := h.rooted hw' (h2.trans hl) (by rw [hrestless]; exact List.not_mem_nil)
      rw [h1] at this
      exact this
    · intro u q z wz hq hqz hz
      obtain ⟨w', hw', h1, h2, -⟩ := hold hz
      obtain ⟨h3, h4, h5⟩ := h.pending hq hqz hw'
      exact ⟨h1.symm.trans h3, h2.symm.trans h4, h5⟩
    · intro z wz hz
      obtain ⟨w', hw', -⟩ := hold hz
      exact h.number hw'
    · intro z wz hz hl
      obtain ⟨w', hw', -, -, h3⟩ := hold hz
      exact h3 (h.leaf hw' hl)
    · intro z hz
      rw [List.mem_singleton.1 hz]
      trivial
    · intro z wz hz hl
      by_cases hzy : z = y
      · subst hzy
        rw [hw] at hz
        cases hz
        obtain ⟨signal', hwake⟩ := hs.top hl
        exact Or.inl ⟨_, hwake, rfl, rfl⟩
      · have hz' : (k.waits.erase y).get? z = some wz := by rw [Table.get?_erase, if_neg hzy, hz]
        rcases hs.root hz' hl with ⟨signal', hwake⟩ | hkept
        · exact Or.inl ⟨_, hwake, rfl, rfl⟩
        · exact Or.inr hkept
    · intro u hu
      obtain ⟨h1, h2, h3⟩ := hs.wakeup hu
      refine ⟨h2, ?_⟩
      rcases h3 with ⟨hy', hl⟩ | ⟨w', hw', ht', hl'⟩
      · rw [hy']
        exact ⟨w, hw, h1.symm, hl⟩
      · rw [Table.get?_erase] at hw'
        split at hw'
        · cases hw'
        · exact ⟨w', hw', ht'.trans h1.symm, hl'⟩

/-- The step of a task begins when nothing in the table is what it is parked on. -/
theorem Begins.tabled {G : List Instr} {expected : Option EffectId} {signal : Option Signal}
    (hb : Begins i k t expected signal k' G) (h : Tabled k [.drain i] past)
    (hgone : ∀ {y}, expected = some y → k.waits.get? y = none) :
    Tabled k' (G ++ [.drain i]) past := by
  have hturn : ∀ {p}, k.posture t = some p → p.pending = expected →
      Tabled (k.enterTurn t) [.drain i] past := by
    intro p hp hpend
    have := h.unpark (t := t) (f := fun p => { p with hasBody := false, status := .running }) ?_
      fun q => Or.inr rfl
    · exact this.congr rfl rfl rfl
    · intro q y hq hy
      rw [hp] at hq
      cases hq
      exact hgone (hpend.symm.trans hy)
  cases hb with
  | skip => exact h
  | poll hp _ hpend => exact (hturn hp hpend).cons rfl rfl trivial
  | leave hp _ hpend => exact (hturn hp hpend).cons rfl rfl trivial

end

end SagaMachine
