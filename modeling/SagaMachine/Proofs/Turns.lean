import SagaMachine.Proofs.Tables

/-!
# Moves within the step of a task

A frame of the step of a task leaves another one behind, until the body is left
(`Does.turns`). What it does to the wait table is one of the things that can happen to an
effect that is being started, so the task is still starting an effect afterwards, and
nothing else is touched.

Main statement: `Does.turns`.
-/

namespace SagaMachine

/-- The number that is kept for an effect which is not started yet. -/
def Instr.reserved? : Instr → Option EffectId
  | .answer _ _ _ id _ _ | .cancelDone _ _ _ id => some id
  | _ => none

/-- What a frame of the step of a task comes to, unless the body is left. -/
structure Proceeds (k : Core) (past : List Event) (t : TaskId) (k' : Core) (g : Instr)
    (es : List Event) : Prop where
  unmoved : k.Unmoved k'
  grows : k.Grows k'
  relies : g.Relies k
  turns : ∃ new, Turns k past t k' g es new

section

variable {i : MiddlewareId} {k k' : Core} {x g : Instr} {t : TaskId} {past es : List Event}

theorem Instr.Starts.of_starting (hg : g.turn? = some t)
    (hs : Starting k.waits t g.nests g.begun?) (hb : ∀ y, g.begun? = some y → k.Unused y)
    (hr : g.reserved? = none) : g.Starts k := by
  cases g with
  | trigger => cases hg; exact hs.isOpen
  | answer | cancelDone => cases hr
  | begun turn b nests start =>
    cases hg
    cases start with
    | pending y =>
      obtain ⟨hi, hw⟩ := hs.latest rfl
      exact ⟨hs.isOpen, hi, hb y rfl, hw⟩
    | _ => exact hs.isOpen
  | leave turn b exit =>
    cases hg
    cases exit with
    | suspended y =>
      obtain ⟨hi, hw⟩ := hs.latest rfl
      exact ⟨hi, hb y rfl, hw⟩
    | _ => trivial
  | _ => trivial

/-- Events about effects and about nothing trigger none. -/
def Silent (es : List Event) : Prop := ∀ e ∈ es, ∀ t x p f, e ≠ .triggered t x p f

theorem Silent.nil : Silent [] := fun e he => by cases he

theorem Silent.cons {e : Event} (he : ∀ t x p f, e ≠ .triggered t x p f) (h : Silent es) :
    Silent (e :: es) := by
  intro e' he'
  rcases List.mem_cons.1 he' with rfl | he'
  · exact he
  · exact h e' he'

theorem Silent.append {es' : List Event} (h : Silent es) (h' : Silent es') : Silent (es ++ es') := by
  intro e he
  rcases List.mem_append.1 he with he | he
  · exact h e he
  · exact h' e he

theorem Quiet.silent (h : Quiet es) : Silent es := by
  rintro e he t x p f rfl
  exact h _ he

theorem Silent.passages (ps : List Passage) : Silent (ps.map Passage.event) := by
  rintro e he t x p f rfl
  obtain ⟨q, -, hq⟩ := List.mem_map.1 he
  cases q <;> cases hq

theorem Silent.settled (x : EffectId) (signal : Signal) : Silent [.settled x signal] :=
  .cons (fun _ _ _ _ h => by cases h) .nil

/-- A frame that leaves the table alone. -/
theorem Proceeds.still (hst : Starting k.waits t x.nests x.begun?) (hg : g.turn? = some t)
    (hnests : g.nests = x.nests) (hb : g.begun? = x.begun?) (hs : g.Starts k) (hr : g.Relies k)
    (hes : Silent es) : Proceeds k past t k g es where
  unmoved := ⟨rfl, rfl, rfl, rfl⟩
  grows := ⟨rfl, [], by simp⟩
  relies := hr
  turns := by
    refine ⟨[], rfl, Nat.le_refl _, hg, ?_, hs, .refl _ _ _, ?_, ?_, ?_⟩
    · rw [hnests, hb]
      exact hst
    · intro y hy
      cases hy
    · intro y hy
      cases hy
    · intro u y p e hm
      exact absurd rfl (hes _ hm _ _ _ _)

/-- A frame that changes the table, but starts no new effect. -/
theorem Proceeds.moved {waits : Waits} (hg : g.turn? = some t)
    (hst : Starting waits t g.nests g.begun?) (ht : k.waits.Touches waits t [])
    (hb : ∀ y, g.begun? = some y → k.Unused y) (hres : g.reserved? = none) (hr : g.Relies k)
    (hes : Silent es) : Proceeds k past t { k with waits } g es where
  unmoved := ⟨rfl, rfl, rfl, rfl⟩
  grows := ⟨rfl, [], by simp⟩
  relies := hr
  turns := by
    refine ⟨[], rfl, Nat.le_refl _, hg, hst, ?_, ht, ?_, ?_, ?_⟩
    · exact .of_starting hg hst hb hres
    · intro y hy
      cases hy
    · intro y hy
      cases hy
    · intro u y p e hm
      exact absurd rfl (hes _ hm _ _ _ _)

/-! ## New effects -/

theorem Tabled.get?_nextEffect {F : List Instr} (h : Tabled k F past) :
    k.waits.get? k.nextEffect = none := by
  cases hw : k.waits.get? k.nextEffect with
  | none => rfl
  | some w => exact absurd (h.number hw) (Nat.lt_irrefl _)

theorem Tabled.unused_nextEffect {F : List Instr} (h : Tabled k F past) :
    k.Unused k.nextEffect := fun _ _ hp hx => Nat.lt_irrefl _ (h.parked hp hx)

theorem Starting.inside_of_lt {nests : List Nest} {begun : Option EffectId} {waits : Waits}
    {n : EffectId} (h : Starting waits t nests begun) (hn : ∀ {y w}, waits.get? y = some w → y < n) :
    Inside nests n := by
  intro m hm
  obtain ⟨w, hw, -⟩ := h.isOpen.exists_get? hm
  exact hn hw

/-- An effect is triggered that is not pending. -/
theorem Proceeds.triggered {nests : List Nest} {e : Effect} (htab : Tabled k [x, .drain i] past)
    (hst : Starting k.waits t nests none) (hg : g.turn? = some t) (hnests : g.nests = nests)
    (hb : g.begun? = none) (hres : g.reserved? = none ∨ g.reserved? = some k.nextEffect)
    (hr : g.Relies k) {parent : Option EffectId} {es : List Event} (hes : Silent es) :
    Proceeds k past t k.number g (.triggered t k.nextEffect parent e :: es) where
  unmoved := ⟨rfl, rfl, rfl, rfl⟩
  grows := ⟨rfl, [], by simp [Core.number]⟩
  relies := hr
  turns := by
    have hst' : Starting k.number.waits t g.nests g.begun? := by
      rw [hnests, hb]
      exact hst
    have hin : Inside nests k.nextEffect := hst.inside_of_lt htab.number
    refine ⟨[], rfl, Nat.le_succ _, hg, hst', ?_, .refl _ _ _, ?_, ?_, ?_⟩
    · rcases hres with hres | hres
      · exact .of_starting hg hst' (fun y hy => by rw [hb] at hy; cases hy) hres
      · cases g with
        | answer | cancelDone =>
          cases hg
          cases hres
          cases hnests
          exact ⟨hst.isOpen, hin, htab.unused_nextEffect, Nat.lt_succ_self _, htab.get?_nextEffect⟩
        | _ => cases hres
    · intro y hy
      cases hy
    · intro y hy
      cases hy
    · intro u y p f hm
      rcases List.mem_cons.1 hm with hm | hm
      · cases hm
        exact ⟨Nat.le_refl _, Nat.lt_succ_self _⟩
      · exact absurd rfl (hes _ hm _ _ _ _)

/-- An effect is put into the table. -/
theorem Proceeds.inserted {waits : Waits} {n : EffectId} {link : Link} {kind : WaitKind}
    (hn : k.waits.get? n = none) (hun : k.Unused n)
    (hw : waits = k.waits.insert n { task := t, link, kind })
    (hst : Starting waits t g.nests g.begun?) (hg : g.turn? = some t)
    (hb : ∀ y, g.begun? = some y → y = n) (hres : g.reserved? = none) (hr : g.Relies k)
    (hk : k.Unmoved k') (hgrow : k.Grows k') (hwaits : k'.waits = waits)
    (hcount : k.nextEffect ≤ k'.nextEffect) (hlt : n < k'.nextEffect)
    (hleaf : LeafName (es.reverse ++ past) n → kind.IsLeaf)
    (hnames : ∀ {u y p e}, .triggered u y p e ∈ es → k.nextEffect ≤ y ∧ y < k'.nextEffect) :
    Proceeds k past t k' g es where
  unmoved := hk
  grows := hgrow
  relies := hr
  turns := by
    have hun' : k'.Unused n := fun u p hp => hun u p (hk.posture ▸ hp)
    refine ⟨[n], hk.posture, hcount, hg, hwaits ▸ hst, ?_, ?_, ?_, ?_, hnames⟩
    · refine .of_starting hg (hwaits ▸ hst) (fun y hy => ?_) hres
      rw [hb y hy]
      exact hun'
    · rw [hwaits, hw]
      exact Waits.touches_insert hn
    · intro y hy
      rw [List.mem_singleton.1 hy]
      exact ⟨hun, hlt⟩
    · intro y hy w hyw hl
      rw [List.mem_singleton.1 hy] at hyw hl
      rw [hwaits, hw, Table.get?_insert, if_pos rfl] at hyw
      cases hyw
      exact hleaf hl

/-! ## Combinators -/

theorem Effect.nodup_of_go {seen ks : List String} (h : Effect.duplicateKey?.go seen ks = none) :
    ks.Nodup ∧ ∀ k ∈ ks, k ∉ seen := by
  induction ks generalizing seen with
  | nil => exact ⟨List.nodup_nil, fun k hk => by cases hk⟩
  | cons k ks ih =>
    unfold Effect.duplicateKey?.go at h
    split at h
    · cases h
    · rename_i hk
      obtain ⟨h1, h2⟩ := ih h
      refine ⟨List.nodup_cons.2 ⟨fun hm => h2 k hm List.mem_cons_self, h1⟩, ?_⟩
      intro k' hk'
      rcases List.mem_cons.1 hk' with rfl | hk'
      · simpa using hk
      · exact fun hs => h2 k' hk' (List.mem_cons_of_mem _ hs)

theorem Effect.filterMap_map_none {α : Type} (es : List α) :
    (es.map fun _ => (none : Option EffectId)).filterMap id = [] := by
  induction es with
  | nil => rfl
  | cons e es ih => exact ih

/-- A combinator is opened with all its slots empty. -/
theorem Effect.fits_of_fan? {e e₀ : Effect} {rest : List Effect} {kind : WaitKind}
    (h : e.fan? = some (kind, e₀, rest)) (id : EffectId) :
    (kind.nest id rest).Fits kind ∧ kind.members = [] ∧ (kind.nest id rest).id = id ∧
      ¬ kind.IsLeaf := by
  have hnone : ∀ (α β : Type) (es : List α),
      (es.map fun _ => (none : Option β)) = List.replicate es.length none := fun _ _ es =>
    List.map_const' ..
  unfold Effect.fan? at h
  split at h
  · rename_i members
    split at h
    · rename_i e' es' hdup hm
      cases h
      refine ⟨⟨?_, [], rfl, ?_⟩, Effect.filterMap_map_none _, rfl, fun hl => hl⟩
      · intro ks hks
        cases hks
        refine ⟨?_, (Effect.nodup_of_go hdup).1⟩
        have := congrArg List.length hm
        simpa using this
      · simp [hnone]
    · cases h
  · rename_i e' es'
    cases h
    refine ⟨⟨?_, [], rfl, ?_⟩, Effect.filterMap_map_none _, rfl, fun hl => hl⟩
    · intro ks hks
      cases hks
    · simp [hnone]
  · rename_i e' es'
    cases h
    refine ⟨⟨?_, [], [], rfl, .nil, ?_, ?_⟩, Effect.filterMap_map_none _, rfl, fun hl => hl⟩
    · rw [hnone, List.countP_replicate]
      simp
    · simp [hnone]
    · simp [hnone]
  · cases h

/-! ## The frames of a step -/

theorem Starting.pending_nest {waits waits' : Waits} {n : Nest} {nests : List Nest} {y : EffectId}
    (h : Starting waits t (n :: nests) (some y))
    (hw : waits' = waits.modify n.id fun w => { w with kind := w.kind.setMember n.slot y }) :
    waits.Touches waits' t [] ∧
      (∀ {e rest}, n.rest = e :: rest → Starting waits' t (n.advance rest :: nests) none) ∧
      (n.rest = [] → Starting waits' t nests (some n.id)) := by
  obtain ⟨w, hget, ht, -, hfit⟩ := h.get?_nest
  have hs : waits.Sets n.id { w with kind := w.kind.setMember n.slot y } waits' := by
    rw [hw]
    exact Waits.sets_modify hget _
  have hF := h.forest_setMember hget hs
  refine ⟨hs.touches hget ht fun hl => absurd hl hfit.not_isLeaf, ?_, ?_⟩
  · intro e rest hr
    refine h.of_sets hget hs hF ?_ (hfit.setMember hr)
    cases n <;> rfl
  · intro hr
    exact h.of_whole hget hs hF (hfit.whole_setMember hr)

/-- A value is recorded in an `all` whose members are being started. -/
theorem Starting.value_nest {waits waits' : Waits} {id slot : Nat} {rest : List Effect}
    {nests : List Nest} {v : Value} (h : Starting waits t (.all id slot rest :: nests) none)
    (hw : waits' = (waits.merge id slot (.value v)).2) :
    waits.Touches waits' t [] ∧
      (∀ {e rest'}, rest = e :: rest' → Starting waits' t (.all id (slot + 1) rest' :: nests) none) ∧
      (rest = [] →
        (∀ w results members, waits'.get? id = some w → w.kind ≠ .all results members 0) →
        Starting waits' t nests (some id)) ∧
      (∀ {w results members}, waits'.get? id = some w → w.kind = .all results members 0 →
        rest = [] → Starting (waits'.erase id) t nests none ∧
          waits.Touches (waits'.erase id) t []) := by
  obtain ⟨w, hget, ht, -, hfit⟩ := h.get?_nest
  have hget : waits.get? id = some w := hget
  cases hkind : w.kind with
  | all results members remaining =>
    rw [hkind] at hfit
    obtain ⟨kind, hmerge, hk, -⟩ := Waits.merge_eq hget hkind slot (.value v)
    have hk : kind = .all (results.set slot (some v)) (members.set slot none) (remaining - 1) := hk
    subst hk
    have hset : members.set slot none = members := Nest.Fits.set_none hfit.slot_all.1
    have hs : waits.Sets id
        { w with kind := .all (results.set slot (some v)) (members.set slot none) (remaining - 1) }
        waits' := by
      rw [hw, hmerge]
      exact Waits.sets_modify hget _
    have hF : Waits.Forest waits' (id :: nests.map Nest.id) .task := by
      refine Waits.Forest.rekind h.forest hget hs ?_
      intro link y
      rw [hkind, hset]
      cases link <;> rfl
    refine ⟨?_, ?_, ?_, ?_⟩
    · refine hs.touches hget ht ?_
      rw [hkind]
      exact fun hl => hl
    · rintro e rest' rfl
      exact h.of_sets hget hs hF rfl (hfit.record v)
    · rintro rfl hne
      obtain ⟨hfill, hcount⟩ := hfit.record_last v
      refine h.of_whole hget hs hF ⟨hfill, hcount, ?_⟩
      refine Nat.pos_of_ne_zero fun h0 => ?_
      exact hne _ _ _ (by rw [hs, if_pos rfl]) (by rw [h0])
    · rintro w' results' members' hw' hk' rfl
      rw [hs, if_pos rfl] at hw'
      cases hw'
      injection hk' with _ _ h0
      obtain ⟨hfill, hcount⟩ := hfit.record_last v
      have hmem : w.kind.members = [] := by
        have := Waits.filterMap_members_of_complete hfill (hcount.symm.trans h0)
        rw [hset] at this
        rw [hkind]
        exact this
      have herase : waits'.erase id = (Waits.detachEach (waits.erase id) w.kind.members).2 := by
        rw [hw, hmerge, Table.erase_modify, hmem]
        rfl
      have hp : waits.Prunes t id (waits'.erase id) := by
        rw [herase]
        exact Waits.prunes_close hget ht
      exact ⟨h.prune hp, hp.touches h.forest⟩
  | _ =>
    rw [hkind] at hfit
    exact hfit.elim

/-- No task is parked on an effect that is being started. -/
theorem Tabled.unused_nest {n : Nest} {nests : List Nest} (h : Tabled k [x, .drain i] past)
    (hst : Starting k.waits t x.nests x.begun?) (hn : x.nests = n :: nests) : k.Unused n.id := by
  intro u p hp hpend
  have hmem : n ∈ x.nests := by
    rw [hn]
    exact List.mem_cons_self
  obtain ⟨w, hw, -⟩ := hst.isOpen.exists_get? hmem
  obtain ⟨-, -, hl⟩ := h.pending hp hpend hw
  rw [looseOf_turn] at hl
  exact hl (List.mem_append_right _ (List.mem_map_of_mem hmem))

/-- What the first frame of a step comes to. -/
def Comes (i : MiddlewareId) (k : Core) (past : List Event) (t : TaskId) (k' : Core)
    (G : List Instr) (es : List Event) : Prop :=
  ∃ g G₀ k₁, G = G₀ ++ [g] ∧ (∀ y ∈ G₀, ∃ u, y = .cancel i u) ∧ Proceeds k past t k₁ g es ∧
    (k' = k₁ ∨
      ∃ detached, k.Live t ∧ (∀ k, g.Relies k) ∧
        k' = (k₁.create (some t) detached).schedule [.start k₁.nextTask])

theorem Proceeds.comes (h : Proceeds k past t k' g es) : Comes i k past t k' [g] es := by
  refine ⟨g, [], k', rfl, ?_, h, Or.inl rfl⟩
  intro y hy
  cases hy

theorem Instr.IsScript.plain {turn : Turn} (h : g.IsScript turn) :
    g.turn? = some turn.task ∧ g.nests = [] ∧ g.begun? = none ∧ (∀ k, g.Starts k) ∧
      ∀ k, g.Relies k := by
  cases g with
  | advance | polled => cases h; exact ⟨rfl, rfl, rfl, fun _ => trivial, fun _ => trivial⟩
  | _ => exact h.elim

/-- The step of a task goes on until its body is left. -/
theorem Does.turns {G : List Instr} {D : List TaskId} (h : Does i past x k k' G D es)
    (hx : x.turn? = some t) (htab : Tabled k [x, .drain i] past) (ht : k.Afoot t)
    (hrel : x.Relies k) :
    (∃ b exit, x = .leave ⟨i, t⟩ b exit) ∨ Comes i k past t k' G es := by
  have hst := htab.starting hx ht
  cases h with
  | poll hg | advance hg =>
    cases hx
    obtain ⟨h1, h2, h3, h4, h5⟩ := hg.plain
    refine Or.inr (Proceeds.comes (.still hst h1 h2 h3 (h4 k) (h5 k) ?_))
    first
      | exact .nil
      | exact .cons (fun _ _ _ _ h => by cases h) .nil
  | polledHalted h | polledComplete h | begunHalted h | begunEnds h | begunYields h =>
    cases hx
    exact Or.inr (Proceeds.comes (.still hst rfl rfl rfl trivial h .nil))
  | polledYielded =>
    cases hx
    exact Or.inr (Proceeds.comes (.still hst rfl rfl rfl trivial trivial .nil))
  | begunPolls =>
    cases hx
    exact Or.inr (Proceeds.comes (.still hst rfl rfl rfl trivial trivial .nil))
  | triggerHalted h =>
    cases hx
    exact Or.inr (Proceeds.comes (.still hst rfl rfl rfl hst.isOpen h .nil))
  | cancelHalted h =>
    cases hx
    exact Or.inr (Proceeds.comes (.still hst rfl rfl rfl hst.isOpen h .nil))
  | answerSettles | cancelSettles =>
    cases hx
    exact Or.inr (Proceeds.comes (.still hst rfl rfl rfl hst.isOpen trivial (.settled _ _)))
  | begunHalt =>
    cases hx
    exact Or.inr (Proceeds.comes (.still hst rfl rfl rfl trivial hrel .nil))
  | begunSuspends h =>
    cases hx
    have hs := (htab.frames _ List.mem_cons_self).2
    exact Or.inr (Proceeds.comes (.still hst rfl rfl rfl hs h .nil))
  | @triggerSettles _ t b nests e signal _ h he hq =>
    cases hx
    have hst : Starting k.waits t nests none := hst
    refine Or.inr (Proceeds.comes ?_)
    refine Proceeds.triggered htab hst ?_ ?_ ?_ (Or.inl ?_) ?_ (hq.silent.append (.settled _ _))
    all_goals first | rfl | trivial
  | @triggerForks _ t b nests e h he saga detached v =>
    cases hx
    have hst : Starting k.waits t nests none := hst
    refine Or.inr ⟨_, [], k.number, rfl, ?_, ?_, Or.inr ⟨detached, h, fun _ => trivial, rfl⟩⟩
    · intro y hy
      cases hy
    · have hes : Silent [.taskStarted k.nextTask (some t) saga, .settled k.nextEffect (.value v)] :=
        .cons (fun _ _ _ _ h => by cases h) (.settled _ _)
      refine Proceeds.triggered htab hst ?_ ?_ ?_ (Or.inl ?_) ?_ hes
      all_goals first | rfl | trivial
  | @triggerCalls _ t b nests e h he result env =>
    cases hx
    have hst : Starting k.waits t nests none := hst
    refine Or.inr (Proceeds.comes ?_)
    refine Proceeds.triggered htab hst ?_ ?_ ?_ (Or.inr ?_) ?_ .nil
    all_goals first | rfl | trivial
  | @triggerCancels _ t b nests e h he u =>
    cases hx
    have hst : Starting k.waits t nests none := hst
    refine Or.inr ⟨_, [.cancel i u], k.number, rfl, ?_, ?_, Or.inl rfl⟩
    · intro y hy
      exact ⟨u, List.mem_singleton.1 hy⟩
    · refine Proceeds.triggered htab hst ?_ ?_ ?_ (Or.inr ?_) ?_ .nil
      all_goals first | rfl | trivial
  | triggerSuspends h he hk hs hq =>
    cases hx
    have hk := hk.isLeaf
    have hin := hst.inside_of_lt htab.number
    refine Or.inr (Proceeds.comes (.inserted htab.get?_nextEffect htab.unused_nextEffect rfl
      (hst.suspend htab.get?_nextEffect hin hk) rfl ?_ rfl trivial ⟨rfl, rfl, rfl, rfl⟩
      ⟨rfl, _, rfl⟩ rfl (Nat.le_succ _) (Nat.lt_succ_self _) (fun _ => hk) ?_))
    · intro y hy
      cases hy
      rfl
    · intro u y p f hm
      rcases List.mem_cons.1 hm with hm | hm
      · cases hm
        exact ⟨Nat.le_refl _, Nat.lt_succ_self _⟩
      · exact (hq _ hm).elim
  | triggerOpens h he =>
    cases hx
    obtain ⟨hfit, hmem, hid, hleaf⟩ := Effect.fits_of_fan? he k.nextEffect
    have hin := hst.inside_of_lt htab.number
    have hst' := hst.openNest (by rw [hid]; exact htab.get?_nextEffect) (by rw [hid]; exact hin) hfit
      hmem
    rw [hid] at hst'
    refine Or.inr (Proceeds.comes (.inserted htab.get?_nextEffect htab.unused_nextEffect rfl
      hst' rfl ?_ rfl trivial ⟨rfl, rfl, rfl, rfl⟩ ⟨rfl, [], by simp [Core.number, Core.suspend]⟩ rfl
      (Nat.le_succ _) (Nat.lt_succ_self _) ?_ ?_))
    · intro y hy
      cases hy
    · rintro ⟨u, p, f, hm, hf⟩
      rcases List.mem_append.1 hm with hm | hm
      · cases List.mem_singleton.1 (List.mem_reverse.1 hm)
        rw [he] at hf
        cases hf
      · exact absurd (htab.named hm) (Nat.lt_irrefl _)
    · intro u y p f hm
      cases List.mem_singleton.1 hm
      exact ⟨Nat.le_refl _, Nat.lt_succ_self _⟩
  | @answerSuspends _ t b nests y result env d rs hs =>
    cases hx
    obtain ⟨-, hin, hun, hlt, hget⟩ := htab.frames _ List.mem_cons_self
    have hleaf : (WaitKind.call d).IsLeaf := trivial
    have hst' := hst.suspend hget hin hleaf
    refine Or.inr (Proceeds.comes (.inserted hget hun rfl hst' rfl ?_
      rfl trivial ⟨rfl, rfl, rfl, rfl⟩ ⟨rfl, _, rfl⟩ rfl (Nat.le_refl _) hlt (fun _ => trivial) ?_))
    · intro y hy
      cases hy
      rfl
    · intro u y p f hm
      cases hm
  | @begunWithdraws _ t b y h =>
    cases hx
    obtain ⟨-, w, hw, hwt, -⟩ := hst.latest rfl
    have hp : k.waits.Prunes t y (Waits.detach k.waits [y]).2 := Waits.prunes_detach fun hw' => by
      rw [hw] at hw'
      cases hw'
      exact hwt
    refine Or.inr (Proceeds.comes (.moved rfl (hst.prune_latest hp) (hp.touches hst.forest) ?_ rfl h
      (.passages _)))
    intro y hy
    cases hy
  | @raceHalt _ t b id slot rest nests | @allHalt _ t b id slot rest nests =>
    cases hx
    obtain ⟨w, hw, hwt, -⟩ := hst.get?_nest
    have hp : k.waits.Prunes t id (Waits.detach k.waits [id]).2 := Waits.prunes_detach fun hw' => by
      cases hw.symm.trans hw'
      exact hwt
    refine Or.inr (Proceeds.comes (.moved rfl (hst.prune hp) (hp.touches hst.forest) ?_ rfl hrel
      (.passages _)))
    intro y hy
    cases hy
  | raceNext =>
    cases hx
    obtain ⟨h1, h2, -⟩ := hst.pending_nest rfl
    refine Or.inr (Proceeds.comes (.moved rfl (h2 rfl) h1 ?_ rfl trivial .nil))
    intro y hy
    cases hy
  | raceFull =>
    cases hx
    obtain ⟨h1, -, h2⟩ := hst.pending_nest rfl
    refine Or.inr (Proceeds.comes (.moved rfl (h2 rfl) h1 ?_ rfl trivial .nil))
    intro y hy
    cases hy
    exact htab.unused_nest hst rfl
  | raceLost h | allLost _ h =>
    obtain ⟨w, hw, -⟩ := hst.get?_nest
    cases h.symm.trans hw
  | @raceDecided _ t b id slot rest nests signal w h =>
    cases hx
    obtain ⟨w', hw, hwt, -, hfit⟩ := hst.get?_nest
    cases h.symm.trans hw
    have hwaits : (Waits.closeRace (k.waits.erase id) w.kind slot signal).2.2 =
        (Waits.detachEach (k.waits.erase id) w.kind.members).2 := by
      cases hk : w.kind with
      | race keys members => simp [Waits.closeRace]
      | _ =>
        rw [hk] at hfit
        exact hfit.elim
    have hp : k.waits.Prunes t id (Waits.closeRace (k.waits.erase id) w.kind slot signal).2.2 := by
      rw [hwaits]
      exact Waits.prunes_close h hwt
    refine Or.inr (Proceeds.comes (.moved rfl (hst.prune hp) (hp.touches hst.forest) ?_ rfl trivial
      ((Silent.passages _).append (.settled _ _))))
    intro y hy
    cases hy
  | @allFailed _ t b id slot rest nests signal w hs h =>
    cases hx
    obtain ⟨w', hw, hwt, -⟩ := hst.get?_nest
    cases h.symm.trans hw
    have hp : k.waits.Prunes t id (Waits.detachEach (k.waits.erase id) w.kind.members).2 :=
      Waits.prunes_close h hwt
    refine Or.inr (Proceeds.comes (.moved rfl (hst.prune hp) (hp.touches hst.forest) ?_ rfl trivial
      ((Silent.passages _).append (.settled _ _))))
    intro y hy
    cases hy
  | allNext hk =>
    cases hx
    rcases hk with ⟨member, rfl, rfl⟩ | ⟨v, rfl, rfl⟩
    · obtain ⟨h1, h2, -⟩ := hst.pending_nest rfl
      refine Or.inr (Proceeds.comes (.moved rfl (h2 rfl) h1 ?_ rfl trivial .nil))
      intro y hy
      cases hy
    · obtain ⟨h1, h2, -⟩ := hst.value_nest rfl
      refine Or.inr (Proceeds.comes (.moved rfl (h2 rfl) h1 ?_ rfl trivial .nil))
      intro y hy
      cases hy
  | allFull hk h =>
    cases hx
    rcases hk with ⟨member, rfl, rfl⟩ | ⟨v, rfl, rfl⟩
    · obtain ⟨h1, -, h2⟩ := hst.pending_nest rfl
      refine Or.inr (Proceeds.comes (.moved rfl (h2 rfl) h1 ?_ rfl trivial .nil))
      intro y hy
      cases hy
      exact htab.unused_nest hst rfl
    · obtain ⟨h1, -, h2, -⟩ := hst.value_nest rfl
      refine Or.inr (Proceeds.comes (.moved rfl (h2 rfl h) h1 ?_ rfl trivial .nil))
      intro y hy
      cases hy
      exact htab.unused_nest hst rfl
  | @allComplete _ t b id slot nests start k₁ w results members hk h hw =>
    cases hx
    rcases hk with ⟨member, rfl, rfl⟩ | ⟨v, rfl, rfl⟩
    · obtain ⟨h1, -, h2⟩ := hst.pending_nest rfl
      have hwhole := (h2 rfl).whole h fun hm => ?_
      · rw [hw] at hwhole
        exact absurd hwhole.2.2 (Nat.lt_irrefl _)
      · exact (hst.isOpen.2.1).not_mem hm
    · obtain ⟨-, -, -, h2⟩ := hst.value_nest rfl
      obtain ⟨h3, h4⟩ := h2 h hw rfl
      refine Or.inr (Proceeds.comes (.moved rfl h3 h4 ?_ rfl trivial (.settled _ _)))
      intro y hy
      cases hy
  | leaveSuspended | leaveYielded | leaveFinished | leaveEnded | leaveFailed | leaveHalted =>
    cases hx
    exact Or.inl ⟨_, _, rfl⟩
  | _ => cases hx

end

end SagaMachine
