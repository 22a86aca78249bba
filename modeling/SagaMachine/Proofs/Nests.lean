import SagaMachine.Machine.Instr
import SagaMachine.Proofs.Settlement

/-!
# Combinators that are being started

While a task starts an effect with members, the combinators around the member that is just
being started are *open*: their slots are filled up to that member (`Open`). The wait table
is then still a forest but for these combinators, and for the effect that was started last
and is not yet named by the combinator around it (`Starting`). Each thing that can happen to
an effect that is being started — it is suspended, opened, named by the combinator around
it, decided or given up — leads from one such table to another, and touches effects of that
one task only (`Waits.Touches`).
-/

namespace SagaMachine

/-- The combinator whose members are being started. -/
def Nest.id : Nest → EffectId
  | .race id .. | .all id .. => id

/-- The slot of the member that is being started. -/
def Nest.slot : Nest → Nat
  | .race _ slot _ | .all _ slot _ => slot

/-- The members that are still to be started. -/
def Nest.rest : Nest → List Effect
  | .race _ _ rest | .all _ _ rest => rest

/-- The next member is being started. -/
def Nest.advance (n : Nest) (rest : List Effect) : Nest :=
  match n with
  | .race id slot _ => .race id (slot + 1) rest
  | .all id slot _ => .all id (slot + 1) rest

/-- The members up to the slot of a nest were started, and the others were not. -/
def Nest.Fits : Nest → WaitKind → Prop
  | .race _ slot rest, .race keys members =>
    Waits.KeysFit keys members.length ∧ ∃ started : List EffectId, started.length = slot ∧
      members = started.map some ++ List.replicate (rest.length + 1) none
  | .all _ slot rest, .all results members remaining =>
    remaining = results.countP (·.isNone) ∧
      ∃ (values : List (Option Value)) (started : List (Option EffectId)),
        started.length = slot ∧ List.Forall₂ Waits.SlotFilled values started ∧
          results = values ++ List.replicate (rest.length + 1) none ∧
          members = started ++ List.replicate (rest.length + 1) none
  | _, _ => False

/-- An effect was started inside of some combinators, or is going to be. -/
def Inside (nests : List Nest) (id : EffectId) : Prop := ∀ n ∈ nests, n.id < id

/-- Some combinators of a task are being started, each inside of those that follow. -/
def Open (waits : Waits) (t : TaskId) : List Nest → Prop
  | [] => True
  | n :: nests =>
    (∃ w, waits.get? n.id = some w ∧ w.task = t ∧ w.link = Nest.link nests ∧ n.Fits w.kind) ∧
      Inside nests n.id ∧ Open waits t nests

/--
A task starts an effect: some combinators are open, and what was started last, if it is
pending, is known only to the task itself.
-/
structure Starting (waits : Waits) (t : TaskId) (nests : List Nest) (begun : Option EffectId) :
    Prop where
  forest : Waits.Forest waits (begun.toList ++ nests.map Nest.id) .task
  whole : ∀ {x w}, waits.get? x = some w → x ∉ nests.map Nest.id → w.kind.Whole
  isOpen : Open waits t nests
  latest : ∀ {x}, begun = some x → Inside nests x ∧
    ∃ w, waits.get? x = some w ∧ w.task = t ∧ w.link = Nest.link nests
  roots : ∀ {x w}, waits.get? x = some w → w.task = t → w.link = .task →
    x ∈ begun.toList ++ nests.map Nest.id

/-- Only effects of one task are touched: some go, some change, and some are new. -/
structure Waits.Touches (waits waits' : Waits) (t : TaskId) (new : List EffectId) : Prop where
  other : ∀ {x w}, waits.get? x = some w → w.task ≠ t → waits'.get? x = some w
  old : ∀ {x w}, waits'.get? x = some w → (x ∈ new ∧ w.task = t) ∨
    ∃ w', waits.get? x = some w' ∧ w'.task = w.task ∧ w'.link = w.link ∧
      (w'.kind.IsLeaf → w.kind.IsLeaf)

/-! ## Changes of a wait table -/

namespace Waits

variable {waits : Waits} {loose : List EffectId} {t : TaskId} {x : EffectId} {w : Wait}

theorem Touches.refl (waits : Waits) (t : TaskId) (new : List EffectId) :
    waits.Touches waits t new :=
  ⟨fun h _ => h, fun h => Or.inr ⟨_, h, rfl, rfl, id⟩⟩

/-- A new effect without members is loose. -/
theorem Forest.insert_loose (hF : Forest waits loose .task) (hx : waits.get? x = none)
    (hw : w.kind.members = []) : Forest (waits.insert x w) (x :: loose) .task where
  up {y wy} hy hl p hp := by
    rw [List.mem_cons, not_or] at hl
    rw [Table.get?_insert, if_neg hl.1] at hy
    obtain ⟨pw, hpw, h⟩ := hF.up hy hl.2 hp
    have hpx : p ≠ x := by
      rintro rfl
      rw [hx] at hpw
      cases hpw
    exact ⟨pw, by rw [Table.get?_insert, if_neg hpx, hpw], h⟩
  down {p pw} hp link y hlink hne hm := by
    rw [Table.get?_insert] at hp
    split at hp
    · cases hp
      have := hm.mem_members
      rw [hw] at this
      cases this
    · obtain ⟨hl, hlt, wy, hwy, h⟩ := hF.down hp hlink hne hm
      have hyx : y ≠ x := by
        rintro rfl
        rw [hx] at hwy
        cases hwy
      refine ⟨by simp [hyx, hl], hlt, wy, by rw [Table.get?_insert, if_neg hyx, hwy], h⟩
  gap hp hh := by cases hh

theorem touches_insert (hx : waits.get? x = none) {link : Link} {kind : WaitKind} :
    waits.Touches (waits.insert x { task := t, link, kind }) t [x] where
  other {y wy} hy _ := by
    have hyx : y ≠ x := by
      rintro rfl
      rw [hx] at hy
      cases hy
    rw [Table.get?_insert, if_neg hyx, hy]
  old {y wy} hy := by
    rw [Table.get?_insert] at hy
    split at hy
    · cases hy
      rename_i hyx
      exact Or.inl ⟨by simp [hyx], rfl⟩
    · exact Or.inr ⟨wy, hy, rfl, rfl, id⟩

/-- One entry of a table was replaced. -/
def Sets (waits : Waits) (x : EffectId) (w : Wait) (waits' : Waits) : Prop :=
  ∀ y, waits'.get? y = if y = x then some w else waits.get? y

theorem sets_modify (hx : waits.get? x = some w) (f : Wait → Wait) :
    waits.Sets x (f w) (waits.modify x f) := by
  intro y
  rw [Table.get?_modify, hx]
  rfl

theorem Sets.touches {waits' : Waits} {kind : WaitKind} (h : waits.Sets x { w with kind } waits')
    (hx : waits.get? x = some w) (ht : w.task = t) (hk : w.kind.IsLeaf → kind.IsLeaf) :
    waits.Touches waits' t [] where
  other {y wy} hy hne := by
    have hyx : y ≠ x := by
      rintro rfl
      rw [hx] at hy
      cases hy
      exact hne ht
    rw [h, if_neg hyx, hy]
  old {y wy} hy := by
    rw [h] at hy
    split at hy
    · rename_i hyx
      subst hyx
      cases hy
      exact Or.inr ⟨w, hx, rfl, rfl, hk⟩
    · exact Or.inr ⟨wy, hy, rfl, rfl, id⟩

/-- A combinator gets to know a loose effect as the member in an empty slot. -/
theorem Forest.adopt {p : EffectId} {pw : Wait} {waits' : Waits} {kind : WaitKind}
    (hF : Forest waits (x :: loose) .task) (hp : waits.get? p = some pw)
    (hx : waits.get? x = some w) (hl : w.link.parent? = some p) (ht : w.task = pw.task)
    (hlt : p < x) (hxl : x ∉ loose) (hs : waits.Sets p { pw with kind } waits')
    (hk : ∀ {link : Link} {y : EffectId}, link.parent? = some p →
      (kind.HasMember link y ↔ pw.kind.HasMember link y ∨ (link = w.link ∧ y = x))) :
    Forest waits' loose .task := by
  have hxp : x ≠ p := Nat.ne_of_gt hlt
  have hkeep : ∀ {y wy}, waits.get? y = some wy →
      ∃ wy', waits'.get? y = some wy' ∧ wy'.link = wy.link ∧ wy'.task = wy.task := by
    intro y wy hy
    by_cases hyp : y = p
    · subst hyp
      rw [hp] at hy
      cases hy
      exact ⟨{ pw with kind }, by rw [hs, if_pos rfl], rfl, rfl⟩
    · exact ⟨wy, by rw [hs, if_neg hyp, hy], rfl, rfl⟩
  refine ⟨?_, ?_, fun _ h => by cases h⟩
  · intro y wy hy hyl q hq
    have hold : ∃ wy', waits.get? y = some wy' ∧ wy'.link = wy.link ∧ wy'.task = wy.task := by
      rw [hs] at hy
      split at hy
      · rename_i hyp
        cases hy
        exact ⟨pw, hyp ▸ hp, rfl, rfl⟩
      · exact ⟨wy, hy, rfl, rfl⟩
    obtain ⟨wy', hy', hwl, hwt⟩ := hold
    rw [← hwl] at hq ⊢
    rw [← hwt]
    by_cases hyx : y = x
    · subst hyx
      rw [hx] at hy'
      cases hy'
      rw [hl] at hq
      cases hq
      exact ⟨{ pw with kind }, by rw [hs, if_pos rfl], ht.symm, hlt, (hk hl).2 (Or.inr ⟨rfl, rfl⟩)⟩
    · obtain ⟨qw, hqw, hqt, hqy, hm⟩ := hF.up hy' (by simp [hyx, hyl]) hq
      by_cases hqp : q = p
      · subst hqp
        rw [hp] at hqw
        cases hqw
        exact ⟨{ pw with kind }, by rw [hs, if_pos rfl], hqt, hqy, (hk hq).2 (Or.inl hm)⟩
      · exact ⟨qw, by rw [hs, if_neg hqp, hqw], hqt, hqy, hm⟩
  · intro q qw hq link y hlink hne hm
    have hdown : ∀ {qw₀ : Wait}, waits.get? q = some qw₀ → qw₀.task = qw.task →
        qw₀.kind.HasMember link y →
        y ∉ loose ∧ q < y ∧ ∃ wy, waits'.get? y = some wy ∧ wy.link = link ∧ wy.task = qw.task := by
      intro qw₀ hq₀ hqt hm₀
      obtain ⟨hyl, hqy, wy, hwy, hwl, hwt⟩ := hF.down hq₀ hlink hne hm₀
      obtain ⟨wy', hwy', hl', ht'⟩ := hkeep hwy
      rw [List.mem_cons, not_or] at hyl
      exact ⟨hyl.2, hqy, wy', hwy', hl'.trans hwl, ht'.trans (hwt.trans hqt)⟩
    rw [hs] at hq
    split at hq
    · rename_i hqp
      subst hqp
      cases hq
      rcases (hk hlink).1 hm with hm | ⟨rfl, rfl⟩
      · exact hdown hp rfl hm
      · obtain ⟨wy', hwy', hl', ht'⟩ := hkeep hx
        exact ⟨hxl, hlt, wy', hwy', hl', ht'.trans ht⟩
    · exact hdown hq rfl hm

/-- A combinator whose members stay the same. -/
theorem Forest.rekind {p : EffectId} {pw : Wait} {waits' : Waits} {kind : WaitKind}
    (hF : Forest waits loose .task) (hp : waits.get? p = some pw)
    (hs : waits.Sets p { pw with kind } waits')
    (hk : ∀ {link : Link} {y : EffectId},
      kind.HasMember link y ↔ pw.kind.HasMember link y) : Forest waits' loose .task := by
  have hold : ∀ {y wy}, waits'.get? y = some wy → ∃ wy', waits.get? y = some wy' ∧
      wy'.link = wy.link ∧ wy'.task = wy.task ∧
      ∀ {link z}, wy.kind.HasMember link z ↔ wy'.kind.HasMember link z := by
    intro y wy hy
    rw [hs] at hy
    split at hy
    · rename_i hyp
      cases hy
      exact ⟨pw, hyp ▸ hp, rfl, rfl, hk⟩
    · exact ⟨wy, hy, rfl, rfl, Iff.rfl⟩
  have hnew : ∀ {y wy}, waits.get? y = some wy → ∃ wy', waits'.get? y = some wy' ∧
      wy'.link = wy.link ∧ wy'.task = wy.task ∧
      ∀ {link z}, wy'.kind.HasMember link z ↔ wy.kind.HasMember link z := by
    intro y wy hy
    by_cases hyp : y = p
    · subst hyp
      rw [hp] at hy
      cases hy
      exact ⟨{ pw with kind }, by rw [hs, if_pos rfl], rfl, rfl, hk⟩
    · exact ⟨wy, by rw [hs, if_neg hyp, hy], rfl, rfl, Iff.rfl⟩
  refine ⟨?_, ?_, fun _ h => by cases h⟩
  · intro y wy hy hyl q hq
    obtain ⟨wy', hy', hl, ht, -⟩ := hold hy
    rw [← hl] at hq ⊢
    rw [← ht]
    obtain ⟨qw, hqw, hqt, hqy, hm⟩ := hF.up hy' hyl hq
    obtain ⟨qw', hqw', -, ht', hm'⟩ := hnew hqw
    exact ⟨qw', hqw', ht'.trans hqt, hqy, hm'.2 hm⟩
  · intro q qw hq link y hlink hne hm
    obtain ⟨qw', hq', -, ht, hm'⟩ := hold hq
    obtain ⟨hyl, hqy, wy, hwy, hwl, hwt⟩ := hF.down hq' hlink hne (hm'.1 hm)
    obtain ⟨wy', hwy', hl', ht', -⟩ := hnew hwy
    exact ⟨hyl, hqy, wy', hwy', hl'.trans hwl, ht'.trans (hwt.trans ht)⟩

/-! ### Giving up what is loose -/

/-- A loose effect of a task is taken out together with everything below it. -/
structure Prunes (waits : Waits) (t : TaskId) (x : EffectId) (waits' : Waits) : Prop where
  forest : ∀ {loose}, Forest waits (x :: loose) .task → Forest waits' loose .task
  sub : ∀ {y w}, waits'.get? y = some w → y ≠ x ∧ waits.get? y = some w
  kept : ∀ {loose}, Forest waits (x :: loose) .task → ∀ {y w}, waits.get? y = some w →
    w.task ≠ t ∨ y < x → waits'.get? y = some w

theorem prunes_detach (hx : ∀ {w}, waits.get? x = some w → w.task = t) :
    waits.Prunes t x (waits.detach [x]).2 where
  forest {loose} hF := by
    have hF : Forest waits ([x] ++ loose) .task := hF
    exact hF.detach
  sub {y w} hy := by
    refine ⟨?_, get?_of_get?_detach hy⟩
    rintro rfl
    rw [get?_detach_of_mem List.mem_cons_self] at hy
    cases hy
  kept {loose} hF y w hy hk := by
    have hF' : Forest waits ([x] ++ loose) .task := hF
    have hall := hF'.forall_withdrawn (Q := fun z wz => x ≤ z ∧ wz.task = t) ?_ ?_
    · rw [get?_detach, hy, if_neg]
      intro hmem
      obtain ⟨e, he, rfl⟩ := List.mem_map.1 hmem
      obtain ⟨z, wz, rfl, hwz⟩ := withdrawn_of_mem_detach he
      obtain ⟨h1, h2⟩ := hall z wz he
      simp only [Passage.id] at hy hk
      rw [hy] at hwz
      cases hwz
      rcases hk with hk | hk
      · exact hk h2
      · exact absurd h1 (Nat.not_le_of_lt hk)
    · intro z hz wz hwz
      rw [List.mem_singleton.1 hz] at hwz ⊢
      exact ⟨Nat.le_refl _, hx hwz⟩
    · rintro p pw z wz ⟨h1, h2⟩ hlt hwt - -
      exact ⟨Nat.le_trans h1 (Nat.le_of_lt hlt), hwt.trans h2⟩

theorem prunes_close (hx : waits.get? x = some w) (ht : w.task = t) :
    waits.Prunes t x (detachEach (waits.erase x) w.kind.members).2 where
  forest {loose} hF := (hF.erase_loose hx).detachEach
  sub {y wy} hy := by
    have := get?_of_get?_detachEach hy
    rw [Table.get?_erase] at this
    split at this
    · cases this
    · exact ⟨‹_›, this⟩
  kept {loose} hF y wy hy hk := by
    have hE := hF.erase_loose hx
    have hall := hE.forall_withdrawn_each (Q := fun z wz => x < z ∧ wz.task = t) ?_ ?_
    · have hyx : y ≠ x := by
        rintro rfl
        rw [hx] at hy
        cases hy
        rcases hk with hk | hk
        · exact hk ht
        · exact absurd hk (Nat.lt_irrefl _)
      rw [get?_detachEach, Table.get?_erase, if_neg hyx, hy, if_neg]
      intro hmem
      obtain ⟨e, he, rfl⟩ := List.mem_map.1 hmem
      obtain ⟨z, wz, rfl, hwz⟩ := withdrawn_of_mem_detachEach he
      obtain ⟨h1, h2⟩ := hall z wz he
      simp only [Passage.id] at hy hk hyx
      rw [Table.get?_erase, if_neg hyx, hy] at hwz
      cases hwz
      rcases hk with hk | hk
      · exact hk h2
      · exact absurd h1 (Nat.lt_asymm hk)
    · intro z hz wz hwz
      rw [Table.get?_erase] at hwz
      split at hwz
      · cases hwz
      · obtain ⟨h1, h2, -⟩ := hF.of_mem_members hx hz hwz
        exact ⟨h1, h2.trans ht⟩
    · rintro p pw z wz ⟨h1, h2⟩ hlt hwt - -
      exact ⟨Nat.lt_trans h1 hlt, hwt.trans h2⟩

theorem Prunes.touches {waits' : Waits} (h : waits.Prunes t x waits')
    (hF : Forest waits (x :: loose) .task) : waits.Touches waits' t [] where
  other hy hne := h.kept hF hy (Or.inl hne)
  old hy := Or.inr ⟨_, (h.sub hy).2, rfl, rfl, id⟩

end Waits

/-! ## Slots of open combinators -/

namespace Nest.Fits

variable {n : Nest} {kind : WaitKind} {x : EffectId}

theorem not_isLeaf (h : n.Fits kind) : ¬ kind.IsLeaf := by
  intro hl
  cases kind with
  | race | all => exact hl
  | _ => cases n <;> exact h

theorem set_append_replicate {α : Type} (as : List α) (n : Nat) (a b : α) :
    (as ++ List.replicate (n + 1) b).set as.length a = as ++ [a] ++ List.replicate n b := by
  rw [List.set_append_right _ _ (Nat.le_refl _), Nat.sub_self, List.replicate_succ, List.set_cons_zero,
    List.append_assoc]
  rfl

theorem getElem?_append_replicate {α : Type} (as : List α) (n : Nat) (b : α) :
    (as ++ List.replicate (n + 1) b)[as.length]? = some b := by
  simp

/-- An empty slot gets its member. -/
theorem getElem?_set_slot {members : List (Option EffectId)} {slot s : Nat} {y : EffectId}
    (h : members[slot]? = some none) : (members.set slot (some x))[s]? = some (some y) ↔
      members[s]? = some (some y) ∨ (s = slot ∧ y = x) := by
  have hlt : slot < members.length := (List.getElem?_eq_some_iff.1 h).1
  rw [List.getElem?_set]
  by_cases hs : slot = s
  · subst hs
    simp only [if_true, hlt, h, Option.some.injEq, true_and, reduceCtorEq, false_or]
    exact eq_comm
  · have hs' : ¬ s = slot := fun h => hs h.symm
    simp [hs, hs']

/-- The slot of the member that is being started is empty. -/
theorem slot_race {id : EffectId} {slot : Nat} {rest : List Effect} {keys : Option (List String)}
    {members : List (Option EffectId)} (h : (Nest.race id slot rest).Fits (.race keys members)) :
    members[slot]? = some none := by
  obtain ⟨-, started, rfl, rfl⟩ := h
  simp

theorem slot_all {id : EffectId} {slot remaining : Nat} {rest : List Effect}
    {results : List (Option Value)} {members : List (Option EffectId)}
    (h : (Nest.all id slot rest).Fits (.all results members remaining)) :
    members[slot]? = some none ∧ results[slot]? = some none := by
  obtain ⟨-, values, started, rfl, hf, rfl, rfl⟩ := h
  refine ⟨getElem?_append_replicate started rest.length none, ?_⟩
  rw [← hf.length_eq]
  exact getElem?_append_replicate values rest.length none

/-- The member that was started comes into its slot. -/
theorem hasMember_setMember (h : n.Fits kind) {link : Link} {y : EffectId} (nests : List Nest)
    (hl : link.parent? = some n.id) : (kind.setMember n.slot x).HasMember link y ↔
      kind.HasMember link y ∨ (link = Nest.link (n :: nests) ∧ y = x) := by
  cases n with
  | race id slot rest =>
    cases kind with
    | race keys members =>
      cases link with
      | race p s =>
        cases hl
        simpa [WaitKind.HasMember, WaitKind.setMember, Nest.link, Nest.slot, Nest.id] using
          getElem?_set_slot h.slot_race
      | all p s => simp [WaitKind.HasMember, WaitKind.setMember, Nest.link]
      | task => cases hl
    | _ => exact h.elim
  | all id slot rest =>
    cases kind with
    | all results members remaining =>
      cases link with
      | all p s =>
        cases hl
        simpa [WaitKind.HasMember, WaitKind.setMember, Nest.link, Nest.slot, Nest.id] using
          getElem?_set_slot h.slot_all.1
      | race p s => simp [WaitKind.HasMember, WaitKind.setMember, Nest.link]
      | task => cases hl
    | _ => exact h.elim

/-- The slot is filled, and another member is being started. -/
theorem setMember {e : Effect} {rest : List Effect} (h : n.Fits kind) (hr : n.rest = e :: rest) :
    (n.advance rest).Fits (kind.setMember n.slot x) := by
  cases n with
  | race id slot rest' =>
    cases hr
    cases kind with
    | race keys members =>
      obtain ⟨hk, started, rfl, rfl⟩ := h
      refine ⟨?_, started ++ [x], by simp, ?_⟩
      · simpa [Nest.slot] using hk
      · have := set_append_replicate (started.map some) (rest.length + 1) (some x) none
        simpa [Nest.slot] using this
    | _ => exact h.elim
  | all id slot rest' =>
    cases hr
    cases kind with
    | all results members remaining =>
      obtain ⟨hc, values, started, rfl, hf, rfl, rfl⟩ := h
      refine ⟨hc, values ++ [none], started ++ [some x], by simp, ?_, ?_, ?_⟩
      · exact List.rel_append hf (.cons rfl .nil)
      · simp [List.replicate_succ]
      · exact set_append_replicate started (rest.length + 1) (some x) none
    | _ => exact h.elim

/-- The last slot is filled. -/
theorem whole_setMember (h : n.Fits kind) (hr : n.rest = []) :
    (kind.setMember n.slot x).Whole := by
  cases n with
  | race id slot rest' =>
    cases hr
    cases kind with
    | race keys members =>
      obtain ⟨hk, started, rfl, rfl⟩ := h
      have hset := set_append_replicate (started.map some) 0 (some x) none
      simp only [List.length_map] at hset
      simp only [WaitKind.setMember, WaitKind.Whole, Nest.slot, List.length_set]
      refine ⟨?_, ?_, hk⟩
      · rw [show ([] : List Effect).length + 1 = 0 + 1 from rfl, hset]
        simp
      · rw [show ([] : List Effect).length + 1 = 0 + 1 from rfl, hset]
        intro o ho
        simp only [List.replicate_zero, List.append_nil, List.mem_append, List.mem_map,
          List.mem_singleton] at ho
        rcases ho with ⟨y, -, rfl⟩ | rfl <;> rfl
    | _ => exact h.elim
  | all id slot rest' =>
    cases hr
    cases kind with
    | all results members remaining =>
      obtain ⟨hc, values, started, rfl, hf, rfl, rfl⟩ := h
      have hslot : Waits.SlotFilled none (some x) := rfl
      simp only [WaitKind.setMember, WaitKind.Whole, Nest.slot]
      refine ⟨?_, hc, ?_⟩
      · rw [show ([] : List Effect).length + 1 = 0 + 1 from rfl,
          set_append_replicate started 0 (some x) none]
        simpa using List.rel_append hf (.cons hslot .nil)
      · rw [hc]
        simp
    | _ => exact h.elim

/-! ### Values of an `all` -/

variable {results : List (Option Value)} {members : List (Option EffectId)} {id slot remaining : Nat}
  {rest : List Effect}

theorem set_none (h : members[slot]? = some none) : members.set slot none = members := by
  obtain ⟨hlt, hs⟩ := List.getElem?_eq_some_iff.1 h
  have := List.set_getElem_self hlt
  rwa [hs] at this

/-- A value fills the slot, and another member is being started. -/
theorem record {e : Effect} (h : (Nest.all id slot (e :: rest)).Fits (.all results members remaining))
    (v : Value) : (Nest.all id (slot + 1) rest).Fits
      (.all (results.set slot (some v)) (members.set slot none) (remaining - 1)) := by
  have hcount := Waits.countP_set_value v h.slot_all.2
  have hset := set_none h.slot_all.1
  obtain ⟨hc, values, started, rfl, hf, rfl, rfl⟩ := h
  have hslot : Waits.SlotFilled (some v) none := rfl
  refine ⟨by omega, values ++ [some v], started ++ [none], by simp, ?_, ?_, ?_⟩
  · exact List.rel_append hf (.cons hslot .nil)
  · rw [← hf.length_eq]
    exact set_append_replicate values (rest.length + 1) (some v) none
  · rw [hset]
    simp [List.replicate_succ]

/-- A value fills the last slot. -/
theorem record_last (h : (Nest.all id slot []).Fits (.all results members remaining)) (v : Value) :
    List.Forall₂ Waits.SlotFilled (results.set slot (some v)) (members.set slot none) ∧
      remaining - 1 = (results.set slot (some v)).countP (·.isNone) := by
  have hcount := Waits.countP_set_value v h.slot_all.2
  have hset := set_none h.slot_all.1
  obtain ⟨hc, values, started, rfl, hf, rfl, rfl⟩ := h
  have hslot : Waits.SlotFilled (some v) none := rfl
  refine ⟨?_, by omega⟩
  have hv : (values ++ List.replicate 1 none).set started.length (some v) = values ++ [some v] := by
    rw [← hf.length_eq]
    simp
  rw [hset]
  show List.Forall₂ _ ((values ++ List.replicate 1 none).set started.length (some v)) _
  rw [hv]
  exact List.rel_append hf (.cons hslot .nil)

end Nest.Fits

/-! ## Starting an effect -/

section

variable {waits waits' : Waits} {t : TaskId} {nests : List Nest} {n : Nest} {x : EffectId}

theorem Open.congr (h : Open waits t nests)
    (hs : ∀ n ∈ nests, waits'.get? n.id = waits.get? n.id) : Open waits' t nests := by
  induction nests with
  | nil => trivial
  | cons n nests ih =>
    obtain ⟨hn, hi, ho⟩ := h
    refine ⟨?_, hi, ih ho fun m hm => hs m (List.mem_cons_of_mem _ hm)⟩
    rw [hs n List.mem_cons_self]
    exact hn

theorem Open.exists_get? (h : Open waits t nests) (hn : n ∈ nests) :
    ∃ w, waits.get? n.id = some w ∧ w.task = t := by
  induction nests with
  | nil => cases hn
  | cons m nests ih =>
    rcases List.mem_cons.1 hn with rfl | hn
    · obtain ⟨w, hw, ht, -⟩ := h.1
      exact ⟨w, hw, ht⟩
    · exact ih h.2.2 hn

theorem Open.not_isLeaf {wait : Wait} (h : Open waits t nests) (hn : n ∈ nests)
    (hw : waits.get? n.id = some wait) : ¬ wait.kind.IsLeaf := by
  induction nests with
  | nil => cases hn
  | cons m nests ih =>
    rcases List.mem_cons.1 hn with rfl | hn
    · obtain ⟨w, hw', -, -, hf⟩ := h.1
      rw [hw] at hw'
      cases hw'
      exact hf.not_isLeaf
    · exact ih h.2.2 hn

theorem Inside.not_mem (h : Inside nests x) : x ∉ nests.map Nest.id := by
  intro hx
  obtain ⟨m, hm, rfl⟩ := List.mem_map.1 hx
  exact Nat.lt_irrefl _ (h m hm)

namespace Starting

/-- What is loose belongs to the task. -/
theorem task_of_loose {begun : Option EffectId} (h : Starting waits t nests begun)
    (hx : x ∈ begun.toList ++ nests.map Nest.id) : ∃ w, waits.get? x = some w ∧ w.task = t := by
  rcases List.mem_append.1 hx with hx | hx
  · obtain ⟨-, w, hw, ht, -⟩ := h.latest (Option.mem_toList.1 hx)
    exact ⟨w, hw, ht⟩
  · obtain ⟨m, hm, rfl⟩ := List.mem_map.1 hx
    exact h.isOpen.exists_get? hm

/-- An effect without members is suspended. -/
theorem suspend (h : Starting waits t nests none) (hx : waits.get? x = none)
    (hi : Inside nests x) {kind : WaitKind} (hk : kind.IsLeaf) :
    Starting (waits.insert x { task := t, link := Nest.link nests, kind }) t nests (some x) where
  forest := h.forest.insert_loose hx hk.members
  whole {y w} hy hn := by
    rw [Table.get?_insert] at hy
    split at hy
    · cases hy
      cases kind with
      | race | all => exact hk.elim
      | _ => trivial
    · exact h.whole hy hn
  isOpen := h.isOpen.congr fun m hm => by
    rw [Table.get?_insert, if_neg (Nat.ne_of_lt (hi m hm))]
  latest hy := by
    cases hy
    exact ⟨hi, _, by rw [Table.get?_insert, if_pos rfl], rfl, rfl⟩
  roots {y w} hy ht hl := by
    rw [Table.get?_insert] at hy
    split at hy
    · rename_i hyx
      simp [hyx]
    · have := h.roots hy ht hl
      simpa using Or.inr this

/-- A combinator is opened. -/
theorem openNest (h : Starting waits t nests none) (hx : waits.get? n.id = none)
    (hi : Inside nests n.id) {kind : WaitKind} (hk : n.Fits kind) (hm : kind.members = []) :
    Starting (waits.insert n.id { task := t, link := Nest.link nests, kind }) t (n :: nests)
      none where
  forest := h.forest.insert_loose hx hm
  whole {y w} hy hn := by
    simp only [List.map_cons, List.mem_cons, not_or] at hn
    rw [Table.get?_insert, if_neg hn.1] at hy
    exact h.whole hy hn.2
  isOpen := by
    refine ⟨⟨_, by rw [Table.get?_insert, if_pos rfl], rfl, rfl, hk⟩, hi, ?_⟩
    exact h.isOpen.congr fun m hm => by
      rw [Table.get?_insert, if_neg (Nat.ne_of_lt (hi m hm))]
  latest hy := by cases hy
  roots {y w} hy ht hl := by
    rw [Table.get?_insert] at hy
    split at hy
    · rename_i hyx
      simp [hyx]
    · have := h.roots hy ht hl
      simpa using Or.inr this

/-- The combinator whose member was started last. -/
theorem get?_nest {begun : Option EffectId} (h : Starting waits t (n :: nests) begun) :
    ∃ w, waits.get? n.id = some w ∧ w.task = t ∧ w.link = Nest.link nests ∧ n.Fits w.kind :=
  h.isOpen.1

theorem link_parent? (n : Nest) (nests : List Nest) :
    (Nest.link (n :: nests)).parent? = some n.id := by
  cases n <;> rfl

section

variable {pw : Wait} {kind : WaitKind} {begun : Option EffectId}

/-- The kind of the innermost combinator changes, but another member is being started. -/
theorem of_sets (h : Starting waits t (n :: nests) begun) (hp : waits.get? n.id = some pw)
    (hs : waits.Sets n.id { pw with kind } waits')
    (hF : Waits.Forest waits' (n.id :: nests.map Nest.id) .task) {n' : Nest} (hid : n'.id = n.id)
    (hk : n'.Fits kind) : Starting waits' t (n' :: nests) none where
  forest := by
    simpa [hid] using hF
  whole {y w} hy hn := by
    simp only [List.map_cons, List.mem_cons, not_or, hid] at hn
    rw [hs, if_neg hn.1] at hy
    exact h.whole hy (by simpa using hn)
  isOpen := by
    obtain ⟨⟨w, hw, ht, hl, -⟩, hi, ho⟩ := h.isOpen
    rw [hp] at hw
    cases hw
    refine ⟨⟨{ pw with kind }, by rw [hid, hs, if_pos rfl], ht, hl, hk⟩, hid ▸ hi, ?_⟩
    exact ho.congr fun m hm => by rw [hs, if_neg (Nat.ne_of_lt (hi m hm))]
  latest hy := by cases hy
  roots {y w} hy ht hl := by
    rw [hs] at hy
    split at hy
    · rename_i hyx
      simp [hyx, hid]
    · rename_i hyn
      have := h.roots hy ht hl
      rcases List.mem_append.1 this with hy' | hy'
      · obtain ⟨-, wy, hwy, -, hwl⟩ := h.latest (Option.mem_toList.1 hy')
        rw [hy] at hwy
        cases hwy
        rw [hl] at hwl
        have := link_parent? n nests
        rw [← hwl] at this
        cases this
      · simpa [hid] using hy'

/-- All members of the innermost combinator were started. -/
theorem of_whole (h : Starting waits t (n :: nests) begun) (hp : waits.get? n.id = some pw)
    (hs : waits.Sets n.id { pw with kind } waits')
    (hF : Waits.Forest waits' (n.id :: nests.map Nest.id) .task) (hk : kind.Whole) :
    Starting waits' t nests (some n.id) where
  forest := hF
  whole {y w} hy hn := by
    rw [hs] at hy
    split at hy
    · cases hy
      exact hk
    · rename_i hyn
      exact h.whole hy (by simp [hyn, hn])
  isOpen := by
    obtain ⟨-, hi, ho⟩ := h.isOpen
    exact ho.congr fun m hm => by rw [hs, if_neg (Nat.ne_of_lt (hi m hm))]
  latest hy := by
    cases hy
    obtain ⟨⟨w, hw, ht, hl, -⟩, hi, ho⟩ := h.isOpen
    rw [hp] at hw
    cases hw
    exact ⟨hi, { pw with kind }, by rw [hs, if_pos rfl], ht, hl⟩
  roots {y w} hy ht hl := by
    rw [hs] at hy
    split at hy
    · rename_i hyx
      simp [hyx]
    · have := h.roots hy ht hl
      rcases List.mem_append.1 this with hy' | hy'
      · obtain ⟨-, wy, hwy, -, hwl⟩ := h.latest (Option.mem_toList.1 hy')
        rw [hy] at hwy
        cases hwy
        rw [hl] at hwl
        have := link_parent? n nests
        rw [← hwl] at this
        cases this
      · simpa using hy'

/-- The member that was started last comes into its slot. -/
theorem forest_setMember (h : Starting waits t (n :: nests) (some x))
    (hp : waits.get? n.id = some pw)
    (hs : waits.Sets n.id { pw with kind := pw.kind.setMember n.slot x } waits') :
    Waits.Forest waits' (n.id :: nests.map Nest.id) .task := by
  obtain ⟨hi, w, hw, ht, hl⟩ := h.latest rfl
  obtain ⟨pw', hp', hpt, -, hfit⟩ := h.get?_nest
  rw [hp] at hp'
  cases hp'
  refine h.forest.adopt hp hw ?_ (ht.trans hpt.symm) (hi n List.mem_cons_self) hi.not_mem hs ?_
  · rw [hl]
    exact link_parent? n nests
  · intro link y hlink
    rw [hl]
    exact hfit.hasMember_setMember nests hlink

/-- A combinator, or what was started last, is given up. -/
theorem prune (h : Starting waits t (n :: nests) none) (hp : waits.Prunes t n.id waits') :
    Starting waits' t nests none where
  forest := hp.forest h.forest
  whole hy hn := by
    obtain ⟨hyn, hy⟩ := hp.sub hy
    exact h.whole hy (by simp [hyn, hn])
  isOpen := by
    obtain ⟨-, hi, ho⟩ := h.isOpen
    refine ho.congr fun m hm => ?_
    obtain ⟨w, hw, -⟩ := ho.exists_get? hm
    rw [hw]
    exact hp.kept h.forest hw (Or.inr (hi m hm))
  latest hy := by cases hy
  roots hy ht hl := by
    obtain ⟨hyn, hy⟩ := hp.sub hy
    simpa [hyn] using h.roots hy ht hl

theorem prune_latest (h : Starting waits t [] (some x)) (hp : waits.Prunes t x waits') :
    Starting waits' t [] none where
  forest := hp.forest h.forest
  whole hy hn := h.whole (hp.sub hy).2 hn
  isOpen := trivial
  latest hy := by cases hy
  roots hy ht hl := by
    obtain ⟨hyn, hy⟩ := hp.sub hy
    simpa [hyn] using h.roots hy ht hl

end

end Starting

end

end SagaMachine
