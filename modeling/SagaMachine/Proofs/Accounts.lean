import SagaMachine.Proofs.Passages
import SagaMachine.Proofs.Quiescence

/-!
# The account of effects

Every effect that was triggered is somewhere: in the wait table, at hand of a frame that is
still carrying it out (an `Attempt`), or at its end, which the events tell of once. The events
of a middleware keep to this order (`Regular`), and the wait table agrees with them
(`Accounts`). Only an effect that made its own task terminal comes to no end (`Missing`).

What a move does to this account is one of four things (`Deals`): a walk takes effects out of
the table and lists them, an effect is triggered, an effect at hand comes to something, or it
is given up because its task is terminal.

Main statements: `Does.deals`, `Scenario.Visits.accounts`.
-/

namespace SagaMachine

/-! ## Events of effects -/

/-- The effect that an event triggers. -/
def Event.triggers? : Event → Option EffectId
  | .triggered _ id _ _ => some id
  | _ => none

/-- The effect that an event brings to its end. -/
def Event.ends? : Event → Option EffectId
  | .settled id _ | .withdrawn id => some id
  | _ => none

/-- The effects that some events trigger. -/
def triggeredIn (es : List Event) : List EffectId := es.filterMap Event.triggers?

/-- The effects that some events bring to their end. -/
def endedIn (es : List Event) : List EffectId := es.filterMap Event.ends?

/-- An event of an effect comes in its turn, after those given. -/
def Event.Fits (past : List Event) : Event → Prop
  | .triggered t x p _ =>
    (∀ y ∈ triggeredIn past, y < x) ∧ ∀ q, p = some q → ∃ p' e, .triggered t q p' e ∈ past
  | .settled x _ | .withdrawn x => x ∈ triggeredIn past ∧ x ∉ endedIn past
  | _ => True

/-- Every event of some events, latest first, comes in its turn. -/
inductive Regular : List Event → Prop
  | nil : Regular []
  | cons {e : Event} {past : List Event} (h : e.Fits past) (hp : Regular past) : Regular (e :: past)

section

variable {es es' past : List Event} {x : EffectId} {t : TaskId} {p : Option EffectId} {e : Effect}

theorem mem_triggeredIn : x ∈ triggeredIn es ↔ ∃ t p e, .triggered t x p e ∈ es := by
  constructor
  · intro h
    obtain ⟨ev, hev, hx⟩ := List.mem_filterMap.1 h
    cases ev with
    | triggered t y p e =>
      cases hx
      exact ⟨t, p, e, hev⟩
    | _ => cases hx
  · rintro ⟨t, p, e, h⟩
    exact List.mem_filterMap.2 ⟨_, h, rfl⟩

theorem triggeredIn_append (es es' : List Event) :
    triggeredIn (es ++ es') = triggeredIn es ++ triggeredIn es' := List.filterMap_append

theorem endedIn_append (es es' : List Event) : endedIn (es ++ es') = endedIn es ++ endedIn es' :=
  List.filterMap_append

theorem mem_triggeredIn_onto (es past : List Event) :
    x ∈ triggeredIn (es.reverse ++ past) ↔ x ∈ triggeredIn es ∨ x ∈ triggeredIn past := by
  rw [triggeredIn_append, List.mem_append, triggeredIn, List.filterMap_reverse, List.mem_reverse]
  rfl

theorem mem_endedIn_onto (es past : List Event) :
    x ∈ endedIn (es.reverse ++ past) ↔ x ∈ endedIn es ∨ x ∈ endedIn past := by
  rw [endedIn_append, List.mem_append, endedIn, List.filterMap_reverse, List.mem_reverse]
  rfl

theorem Quiet.triggeredIn (h : Quiet es) : triggeredIn es = [] := by
  refine List.filterMap_eq_nil_iff.2 fun ev hev => ?_
  cases ev with
  | triggered => exact (h _ hev).elim
  | _ => rfl

theorem Quiet.endedIn (h : Quiet es) : endedIn es = [] := by
  refine List.filterMap_eq_nil_iff.2 fun ev hev => ?_
  cases ev with
  | settled | withdrawn => exact (h _ hev).elim
  | _ => rfl

theorem triggeredIn_passages (ps : List Passage) : triggeredIn (ps.map Passage.event) = [] := by
  refine List.filterMap_eq_nil_iff.2 fun ev hev => ?_
  obtain ⟨q, -, rfl⟩ := List.mem_map.1 hev
  cases q <;> rfl

theorem endedIn_passages (ps : List Passage) :
    endedIn (ps.map Passage.event) = ps.map Waits.Passage.id := by
  rw [endedIn, List.filterMap_map, ← List.filterMap_eq_map]
  refine List.filterMap_congr fun q _ => ?_
  cases q <;> rfl

/-- Events that trigger nothing, and end only effects that had not come to their end. -/
theorem Regular.append (h : Regular past) (ht : triggeredIn es = []) (hn : (endedIn es).Nodup)
    (he : ∀ x ∈ endedIn es, x ∈ triggeredIn past ∧ x ∉ endedIn past) :
    Regular (es.reverse ++ past) := by
  induction es generalizing past with
  | nil => exact h
  | cons ev es ih =>
    rw [List.reverse_cons, List.append_assoc, List.singleton_append]
    have hfit : ev.Fits past := by
      cases ev with
      | triggered => cases ht
      | settled x signal => exact he x List.mem_cons_self
      | withdrawn x => exact he x List.mem_cons_self
      | _ => trivial
    have htr : ∀ x, x ∈ triggeredIn past → x ∈ triggeredIn (ev :: past) := fun x hx =>
      mem_triggeredIn.2 ((mem_triggeredIn.1 hx).imp fun _ h => h.imp fun _ h => h.imp fun _ h =>
        List.mem_cons_of_mem ev h)
    refine ih (.cons hfit h) (List.filterMap_eq_nil_iff.2 fun x hx =>
      List.filterMap_eq_nil_iff.1 ht x (List.mem_cons_of_mem ev hx)) ?_ fun x hx => ?_
    · exact hn.sublist ((List.sublist_cons_self ev es).filterMap _)
    · cases hev : ev.ends? with
      | none =>
        have hends : ∀ es, endedIn (ev :: es) = endedIn es := fun es => List.filterMap_cons_none hev
        rw [hends] at he ⊢
        exact ⟨htr x (he x hx).1, (he x hx).2⟩
      | some y =>
        have hends : ∀ es, endedIn (ev :: es) = y :: endedIn es :=
          fun es => List.filterMap_cons_some hev
        rw [hends] at he hn ⊢
        obtain ⟨hxt, hxe⟩ := he x (List.mem_cons_of_mem y hx)
        refine ⟨htr x hxt, fun hm => ?_⟩
        rcases List.mem_cons.1 hm with rfl | hm
        · exact (List.nodup_cons.1 hn).1 hx
        · exact hxe hm

/-- Only what was triggered comes to its end. -/
theorem Regular.triggered_of_ended (h : Regular past) (hx : x ∈ endedIn past) :
    x ∈ triggeredIn past := by
  induction h with
  | nil => cases hx
  | @cons ev past hf _ ih =>
    refine (mem_triggeredIn_onto [ev] _).2 (Or.inr ?_)
    rcases (mem_endedIn_onto [ev] _).1 hx with hx | hx
    · cases ev with
      | settled y signal =>
        cases List.mem_singleton.1 hx
        exact hf.1
      | withdrawn y =>
        cases List.mem_singleton.1 hx
        exact hf.1
      | _ => cases hx
    · exact ih hx

end

/-! ## The account -/

/-- An effect that was triggered and is still being carried out. -/
structure Attempt where
  task : TaskId
  id : EffectId
  parent : Option EffectId

/-- The effect that a frame is carrying out. -/
def Instr.attempt? : Instr → Option Attempt
  | .answer turn _ nests id _ _ | .cancelDone turn _ nests id =>
    some ⟨turn.task, id, (Nest.link nests).parent?⟩
  | _ => none

/-- The effects that some frames are carrying out. -/
def attemptsOf (F : List Instr) : List Attempt := F.filterMap Instr.attempt?

/--
The wait table and the effects at hand agree with the events: none of these effects has come
to its end, and each was triggered by the task, and inside of the combinator, that it has now.
-/
structure Accounts (waits : Waits) (as : List Attempt) (past : List Event) : Prop where
  entries : ∀ {x w}, waits.get? x = some w →
    (∃ e, .triggered w.task x w.link.parent? e ∈ past) ∧ x ∉ endedIn past
  attempts : ∀ a ∈ as, (∃ e, .triggered a.task a.id a.parent e ∈ past) ∧ a.id ∉ endedIn past ∧
    waits.get? a.id = none
  apart : (as.map Attempt.id).Nodup

/-- An effect was triggered that is nowhere: it has not come to its end, and is not pending. -/
structure Missing (waits : Waits) (as : List Attempt) (past : List Event) (x : EffectId) : Prop where
  triggered : x ∈ triggeredIn past
  unended : x ∉ endedIn past
  unlisted : waits.get? x = none
  unheld : x ∉ as.map Attempt.id

/-- What becomes of an effect at hand; `P` is what is known of what it waits for, if it does. -/
inductive Disposes (P : WaitKind → Prop) (waits : Waits) (a : Attempt) :
    Waits → List Attempt → List EffectId → Prop
  | settles : Disposes P waits a waits [] [a.id]
  | suspends {w : Wait} (ht : w.task = a.task) (hl : w.link.parent? = a.parent) (hP : P w.kind) :
      Disposes P waits a (waits.insert a.id w) [] []
  | carries : Disposes P waits a waits [a] []

section

variable {waits waits' : Waits} {as bs : List Attempt} {a : Attempt} {past es : List Event}
  {ps : List Passage} {x : EffectId} {ids : List EffectId} {P : WaitKind → Prop}

theorem Accounts.start : Accounts (Engine.core {}).waits [] [] where
  entries h := by cases h
  attempts a ha := by cases ha
  apart := List.nodup_nil

/-- More events, which end nothing that is pending. -/
theorem Accounts.onto (h : Accounts waits as past) (es : List Event) (hes : ∀ x ∈ endedIn es, x ∉ as.map Attempt.id ∧
    waits.get? x = none) : Accounts waits as (es.reverse ++ past) where
  entries {x w} hx := by
    obtain ⟨⟨e, he⟩, hn⟩ := h.entries hx
    refine ⟨⟨e, List.mem_append_right _ he⟩, fun hm => ?_⟩
    rcases (mem_endedIn_onto _ _).1 hm with hm | hm
    · cases (hes x hm).2.symm.trans hx
    · exact hn hm
  attempts a ha := by
    obtain ⟨⟨e, he⟩, hn, hw⟩ := h.attempts a ha
    refine ⟨⟨e, List.mem_append_right _ he⟩, fun hm => ?_, hw⟩
    rcases (mem_endedIn_onto _ _).1 hm with hm | hm
    · exact (hes _ hm).1 (List.mem_map.2 ⟨a, ha, rfl⟩)
    · exact hn hm
  apart := h.apart

/-- A walk takes effects out of the table. -/
theorem Accounts.walk (h : Accounts waits as past) (hw : waits.Spends ps waits')
    (he : endedIn es = ps.map Waits.Passage.id) : Accounts waits' as (es.reverse ++ past) := by
  have h' : Accounts waits' as past := {
    entries := fun {x w'} hx => by
      obtain ⟨w, hxw, ht, hl, -⟩ := hw.old hx
      rw [← ht, ← hl]
      exact h.entries hxw
    attempts := fun a ha => by
      obtain ⟨htr, hn, hx⟩ := h.attempts a ha
      exact ⟨htr, hn, hw.absent hx⟩
    apart := h.apart }
  refine h'.onto _ fun x hx => ?_
  rw [he, hw.listed] at hx
  refine ⟨fun hm => ?_, hx.2⟩
  obtain ⟨a, ha, rfl⟩ := List.mem_map.1 hm
  obtain ⟨w, hxw⟩ := hx.1
  cases (h.attempts a ha).2.2.symm.trans hxw

theorem Accounts.regular_walk (h : Accounts waits as past) (hr : Regular past)
    (hw : waits.Spends ps waits') (ht : triggeredIn es = [])
    (he : endedIn es = ps.map Waits.Passage.id) : Regular (es.reverse ++ past) := by
  refine hr.append ht (he ▸ hw.nodup) fun x hx => ?_
  rw [he, hw.listed] at hx
  obtain ⟨⟨w, hxw⟩, -⟩ := hx
  obtain ⟨⟨e, hm⟩, hn⟩ := h.entries hxw
  exact ⟨mem_triggeredIn.2 ⟨_, _, e, hm⟩, hn⟩

/-- An effect with a new number is triggered. -/
theorem Accounts.trigger (h : Accounts waits as past) (e : Effect) (hx : waits.get? a.id = none)
    (hr : Regular past) (hnew : ∀ y ∈ triggeredIn past, y < a.id) :
    Accounts waits (a :: as) (.triggered a.task a.id a.parent e :: past) := by
  have h' := h.onto [.triggered a.task a.id a.parent e] fun x hx => by cases hx
  have hends : a.id ∉ endedIn past := fun hm =>
    Nat.lt_irrefl _ (hnew _ (hr.triggered_of_ended hm))
  refine ⟨h'.entries, fun b hb => ?_, List.nodup_cons.2 ⟨fun hm => ?_, h.apart⟩⟩
  · rcases List.mem_cons.1 hb with rfl | hb
    · exact ⟨⟨e, List.mem_cons_self⟩, hends, hx⟩
    · exact h'.attempts b hb
  · obtain ⟨b, hb, hid⟩ := List.mem_map.1 hm
    obtain ⟨⟨e', he'⟩, -⟩ := h.attempts b hb
    exact Nat.lt_irrefl _ (hnew _ (mem_triggeredIn.2 ⟨_, _, _, hid ▸ he'⟩))

/-- The first effect at hand settles, is left pending, or stays at hand. -/
theorem Accounts.dispose (h : Accounts waits (a :: as) past) (hes : endedIn es = ids)
    (hd : Disposes P waits a waits' bs ids) :
    Accounts waits' (bs ++ as) (es.reverse ++ past) := by
  obtain ⟨htr, hn, hx⟩ := h.attempts a List.mem_cons_self
  have hap := List.nodup_cons.1 h.apart
  have hrest : Accounts waits as past :=
    ⟨h.entries, fun b hb => h.attempts b (List.mem_cons_of_mem a hb), hap.2⟩
  cases hd with
  | settles =>
    refine hrest.onto _ fun x hm => ?_
    rw [hes] at hm
    cases List.mem_singleton.1 hm
    exact ⟨hap.1, hx⟩
  | @suspends w ht hl =>
    have h' : Accounts (waits.insert a.id w) as past := {
      entries := fun {y wy} hy => by
        rw [Table.get?_insert] at hy
        split at hy
        · rename_i hya
          cases hy
          rw [hya, ht, hl]
          exact ⟨htr, hn⟩
        · exact h.entries hy
      attempts := fun b hb => by
        obtain ⟨htr, hn, hy⟩ := hrest.attempts b hb
        refine ⟨htr, hn, ?_⟩
        rw [Table.get?_insert, if_neg, hy]
        intro hid
        exact hap.1 (hid ▸ List.mem_map_of_mem hb)
      apart := hap.2 }
    refine h'.onto _ fun x hm => ?_
    rw [hes] at hm
    cases hm
  | carries =>
    refine h.onto _ fun x hm => ?_
    rw [hes] at hm
    cases hm

theorem Accounts.regular_dispose (h : Accounts waits (a :: as) past) (hr : Regular past)
    (ht : triggeredIn es = []) (hes : endedIn es = ids) (hd : Disposes P waits a waits' bs ids) :
    Regular (es.reverse ++ past) := by
  obtain ⟨⟨e, htr⟩, hn, -⟩ := h.attempts a List.mem_cons_self
  cases hd with
  | settles =>
    refine hr.append ht (hes ▸ List.pairwise_singleton _ _) fun x hx => ?_
    rw [hes] at hx
    cases List.mem_singleton.1 hx
    exact ⟨mem_triggeredIn.2 ⟨_, _, e, htr⟩, hn⟩
  | suspends | carries =>
    refine hr.append ht (hes ▸ List.nodup_nil) fun x hx => ?_
    rw [hes] at hx
    cases hx

/-! ### What is missing -/

theorem missing_walk (hw : waits.Spends ps waits') (ht : triggeredIn es = [])
    (he : endedIn es = ps.map Waits.Passage.id) :
    Missing waits' as (es.reverse ++ past) x ↔ Missing waits as past x := by
  constructor
  · intro h
    have hn := fun hm => h.unended ((mem_endedIn_onto _ _).2 hm)
    refine ⟨?_, fun hm => hn (Or.inr hm), ?_, h.unheld⟩
    · rcases (mem_triggeredIn_onto _ _).1 h.triggered with hm | hm
      · rw [ht] at hm
        cases hm
      · exact hm
    · cases hx : waits.get? x with
      | none => rfl
      | some w => exact (hn (Or.inl (he ▸ hw.listed.2 ⟨⟨w, hx⟩, h.unlisted⟩))).elim
  · intro h
    refine ⟨(mem_triggeredIn_onto _ _).2 (Or.inr h.triggered), fun hm => ?_, hw.absent h.unlisted, h.unheld⟩
    rcases (mem_endedIn_onto _ _).1 hm with hm | hm
    · rw [he, hw.listed] at hm
      obtain ⟨⟨w, hx⟩, -⟩ := hm
      cases h.unlisted.symm.trans hx
    · exact h.unended hm

theorem missing_trigger {e : Effect} (hnew : a.id ∉ triggeredIn past) :
    Missing waits (a :: as) (.triggered a.task a.id a.parent e :: past) x ↔
      Missing waits as past x := by
  have hends : endedIn (.triggered a.task a.id a.parent e :: past) = endedIn past := rfl
  have htr : triggeredIn (.triggered a.task a.id a.parent e :: past) = a.id :: triggeredIn past := rfl
  constructor
  · rintro ⟨h₁, h₂, h₃, h₄⟩
    rw [hends] at h₂
    rw [htr, List.mem_cons] at h₁
    rw [List.map_cons, List.mem_cons, not_or] at h₄
    exact ⟨h₁.resolve_left h₄.1, h₂, h₃, h₄.2⟩
  · rintro ⟨h₁, h₂, h₃, h₄⟩
    refine ⟨htr ▸ List.mem_cons_of_mem _ h₁, hends ▸ h₂, h₃, ?_⟩
    rw [List.map_cons, List.mem_cons, not_or]
    refine ⟨?_, h₄⟩
    rintro rfl
    exact hnew h₁

theorem missing_dispose (ht : triggeredIn es = []) (hes : endedIn es = ids)
    (hd : Disposes P waits a waits' bs ids) :
    Missing waits' (bs ++ as) (es.reverse ++ past) x ↔ Missing waits (a :: as) past x := by
  have htr : x ∈ triggeredIn (es.reverse ++ past) ↔ x ∈ triggeredIn past := by
    rw [mem_triggeredIn_onto, ht]
    exact or_iff_right List.not_mem_nil
  cases hd with
  | settles =>
    constructor
    · rintro ⟨h₁, h₂, h₃, h₄⟩
      rw [mem_endedIn_onto, hes, List.mem_singleton, not_or] at h₂
      refine ⟨htr.1 h₁, h₂.2, h₃, ?_⟩
      rw [List.map_cons, List.mem_cons, not_or]
      exact ⟨h₂.1, h₄⟩
    · rintro ⟨h₁, h₂, h₃, h₄⟩
      rw [List.map_cons, List.mem_cons, not_or] at h₄
      refine ⟨htr.2 h₁, ?_, h₃, h₄.2⟩
      rw [mem_endedIn_onto, hes, List.mem_singleton, not_or]
      exact ⟨h₄.1, h₂⟩
  | @suspends w =>
    have hends : x ∈ endedIn (es.reverse ++ past) ↔ x ∈ endedIn past := by
      rw [mem_endedIn_onto, hes]
      exact or_iff_right List.not_mem_nil
    have hins : (waits.insert a.id w).get? x = none ↔ x ≠ a.id ∧ waits.get? x = none := by
      rw [Table.get?_insert]
      split <;> simp_all
    constructor
    · rintro ⟨h₁, h₂, h₃, h₄⟩
      refine ⟨htr.1 h₁, fun hm => h₂ (hends.2 hm), (hins.1 h₃).2, ?_⟩
      rw [List.map_cons, List.mem_cons, not_or]
      exact ⟨(hins.1 h₃).1, h₄⟩
    · rintro ⟨h₁, h₂, h₃, h₄⟩
      rw [List.map_cons, List.mem_cons, not_or] at h₄
      exact ⟨htr.2 h₁, fun hm => h₂ (hends.1 hm), hins.2 ⟨h₄.1, h₃⟩, h₄.2⟩
  | carries =>
    have hends : x ∈ endedIn (es.reverse ++ past) ↔ x ∈ endedIn past := by
      rw [mem_endedIn_onto, hes]
      exact or_iff_right List.not_mem_nil
    constructor
    · rintro ⟨h₁, h₂, h₃, h₄⟩
      exact ⟨htr.1 h₁, fun hm => h₂ (hends.2 hm), h₃, h₄⟩
    · rintro ⟨h₁, h₂, h₃, h₄⟩
      exact ⟨htr.2 h₁, fun hm => h₂ (hends.1 hm), h₃, h₄⟩

end

/-! ## What a move does to the account -/

/-- What a frame does to the account of effects. -/
inductive Deals (i : MiddlewareId) (k : Core) (x : Instr) (k' : Core) (G : List Instr)
    (es : List Event) : Prop
  /-- A walk takes effects out of the table, if anything happens at all. -/
  | walks {ps : List Passage} (hx : x.attempt? = none) (hG : attemptsOf G = [])
      (hw : k.waits.Spends ps k'.waits) (ht : triggeredIn es = [])
      (he : endedIn es = ps.map Waits.Passage.id)
  /-- An effect is triggered inside of the combinators that are being started. -/
  | issues {a : Attempt} {e : Effect} {later : List Event}
      (hx : ∃ b nests, x = .trigger ⟨i, a.task⟩ b nests e)
      (hid : a.id = k.nextEffect) (hp : ∀ q, a.parent = some q →
        ∃ w, k.waits.get? q = some w ∧ w.task = a.task)
      (hes : es = .triggered a.task a.id a.parent e :: later) (ht : triggeredIn later = [])
      {ids : List EffectId} (he : endedIn later = ids)
      (h : Disposes e.Suspends k.waits a k'.waits (attemptsOf G) ids)
  /-- An effect at hand comes to something. -/
  | concludes {a : Attempt} (hx : x.attempt? = some a) (ht : triggeredIn es = [])
      {ids : List EffectId} (he : endedIn es = ids)
      (h : Disposes (fun kind => (∃ d, kind = .call d) ∧
          ∃ b nests result env, x = .answer ⟨i, a.task⟩ b nests a.id result env)
        k.waits a k'.waits (attemptsOf G) ids)
  /-- An effect has made its own task terminal, and is given up. -/
  | halts {t : TaskId} {b : Body} {nests : List Nest} {id : EffectId}
      (hx : x = .cancelDone ⟨i, t⟩ b nests id) (hl : ¬ k.Live t) (hk : k' = k)
      (hG : G = [.begun ⟨i, t⟩ b nests .halt]) (hes : es = [])

section

variable {i : MiddlewareId} {past es : List Event} {x : Instr} {k k' : Core} {F G : List Instr}
  {D : List TaskId} {t : TaskId} {nests : List Nest}

theorem attemptsOf_append (F G : List Instr) : attemptsOf (F ++ G) = attemptsOf F ++ attemptsOf G :=
  List.filterMap_append

/-- The innermost combinator that is being started is in the table. -/
theorem Open.parent {q : EffectId} (h : Open k.waits t nests) (hq : (Nest.link nests).parent? = some q) :
    ∃ w, k.waits.get? q = some w ∧ w.task = t := by
  cases nests with
  | nil => cases hq
  | cons n nests =>
    rw [Starting.link_parent?] at hq
    cases hq
    exact h.exists_get? List.mem_cons_self

/-- Nothing happens to the account. -/
theorem Deals.idle (hx : x.attempt? = none) (hG : attemptsOf G = []) (hk : k'.waits = k.waits)
    (ht : triggeredIn es = []) (he : endedIn es = []) : Deals i k x k' G es :=
  .walks hx hG (by rw [hk]; exact .refl _) ht (he.trans List.map_nil.symm)

/-- A walk, with the events that it lists. -/
theorem Deals.passes {ps : List Passage} (hx : x.attempt? = none) (hG : attemptsOf G = [])
    (hw : k.waits.Spends ps k'.waits) : Deals i k x k' G (ps.map Passage.event) :=
  .walks hx hG hw (triggeredIn_passages ps) (endedIn_passages ps)

/-- A combinator is decided, after what is left below it was withdrawn. -/
theorem Deals.decides {ps : List Passage} {id : EffectId} {w : Wait} (hx : x.attempt? = none)
    (hG : attemptsOf G = []) (h : k.waits.get? id = some w)
    (hw : Waits.Spends (k.waits.erase id) ps k'.waits) (signal : Signal) :
    Deals i k x k' G (ps.map Passage.event ++ [.settled id signal]) := by
  have hd : Deals i k x k' G _ := .passes hx hG (hw.erase_last (e := .settled id signal) h rfl)
  rwa [List.map_append] at hd

/-- A combinator takes note of a member, and nothing happens. -/
theorem Deals.notes (hx : x.attempt? = none) (hG : attemptsOf G = [])
    (hw : k.waits.Spends [] k'.waits) : Deals i k x k' G [] := .passes hx hG hw

theorem Begins.attemptsOf {k₀ : Core} {expected : Option EffectId} {signal : Option Signal}
    (h : Begins i k₀ t expected signal k' G) : attemptsOf G = [] ∧ k'.waits = k₀.waits := by
  cases h <;> exact ⟨rfl, rfl⟩

theorem Buries.waits {outcome : Outcome} {c : Option Cascade} (h : Buries past k t outcome k' c es) :
    k'.waits = k.waits ∧ triggeredIn es = [] ∧ endedIn es = [] := by
  cases h with
  | absent => exact ⟨rfl, rfl, rfl⟩
  | gone hp hs hq =>
    refine ⟨?_, hq.triggeredIn, hq.endedIn⟩
    show (k.bury t).waits = k.waits
    rw [k.bury_eq]

theorem attemptsOf_cascades {α : Type} (f : α → Instr) (hf : ∀ c, (f c).attempt? = none) (cs : List α) :
    attemptsOf (cs.map f) = [] := by
  refine List.filterMap_eq_nil_iff.2 fun y hy => ?_
  obtain ⟨c, -, rfl⟩ := List.mem_map.1 hy
  exact hf c

theorem Instr.IsScript.attempts {turn : Turn} {g : Instr} (h : g.IsScript turn) :
    attemptsOf [g] = [] := by
  cases g with
  | answer | cancelDone => exact h.elim
  | _ => rfl

theorem Instr.IsJob.attempts {g : Instr} (h : g.IsJob) : attemptsOf [g] = [] := by
  cases g with
  | answer | cancelDone => exact h.elim
  | _ => rfl

/-- A member comes into its slot. -/
theorem spends_setMember (waits : Waits) (id : EffectId) (slot : Nat) (member : EffectId) :
    waits.Spends [] (waits.modify id fun w => { w with kind := w.kind.setMember slot member }) :=
  .modify id (f := fun w => { w with kind := w.kind.setMember slot member }) fun w =>
    ⟨rfl, rfl, fun hk => by
      cases hw : w.kind with
      | race | all =>
        rw [hw] at hk
        exact hk.elim
      | _ => rfl, w.kind.race?_setMember slot member⟩

/-- A member comes into its slot, or its value does. -/
theorem spends_fill {id : EffectId} {slot : Nat} {start : Start}
    (hk : (∃ member, start = .pending member ∧ k' = { k with waits := k.waits.modify id fun w =>
        { w with kind := w.kind.setMember slot member } }) ∨
      ∃ v, start = .immediate (.value v) ∧
        k' = { k with waits := (Waits.merge k.waits id slot (.value v)).2 }) :
    k.waits.Spends [] k'.waits := by
  rcases hk with ⟨member, -, rfl⟩ | ⟨v, -, rfl⟩
  · exact spends_setMember ..
  · exact Waits.spends_merge ..

/-- What a frame does to the account of effects. -/
theorem Does.deals (h : Does i past x k k' G D es) (hx : x.Starts k) : Deals i k x k' G es := by
  cases h with
  | rest | next | schedule | polledHalted | polledComplete | polledYielded | triggerHalted
  | begunHalt | begunSuspends | begunHalted | begunEnds | begunPolls | begunYields | leaveSuspended
  | leaveYielded | leaveFinished | leaveEnded | leaveFailed | leaveHalted | returnedLate | returned
  | returnedHeld | abortLate | abortHalts | cascadeAbort | cascadeLate | cancelLate
  | cancelledLate | cancelHalts | raceLost => exact .idle rfl rfl rfl rfl rfl
  | cancel => exact .idle rfl rfl (by rw [k.cancelAll_eq]) rfl rfl
  | settle => exact .passes rfl rfl (Waits.spends_settle ..)
  | wake hn h hb =>
    obtain ⟨hG, hk⟩ := hb.attemptsOf
    exact .passes rfl hG (by rw [hk]; exact Waits.spends_settle ..)
  | start h | resume h => exact .idle rfl h.attemptsOf.1 h.attemptsOf.2 rfl rfl
  | poll hg | advance hg => exact .idle rfl hg.attempts rfl rfl rfl
  | errand hG hs hq =>
    refine .idle rfl ?_ rfl hq.triggeredIn hq.endedIn
    rcases hG with rfl | ⟨g, rfl, hg⟩
    · rfl
    · exact hg.attempts
  | emit hq => exact .idle rfl rfl rfl hq.triggeredIn hq.endedIn
  | forwarded hc hs hq => exact .idle rfl rfl rfl hq.triggeredIn hq.endedIn
  | forwardedCall hs hq => exact .idle rfl rfl rfl hq.triggeredIn hq.endedIn
  | triggerSettles hl he hq =>
    refine .issues (a := ⟨_, _, _⟩) ⟨_, _, rfl⟩ rfl (fun q => hx.parent) rfl ?_ ?_ .settles
    · exact (triggeredIn_append _ _).trans (by rw [hq.triggeredIn]; rfl)
    · exact (endedIn_append _ _).trans (by rw [hq.endedIn]; rfl)
  | triggerForks hl he saga detached v =>
    refine .issues (a := ⟨_, _, _⟩) ⟨_, _, rfl⟩ rfl (fun q => hx.parent) rfl rfl rfl ?_
    show Disposes _ _ _ (Core.create _ _ _).waits _ _
    rw [Core.create_eq]
    exact .settles
  | triggerSuspends hl he hk hs hq =>
    exact .issues (a := ⟨_, _, _⟩) ⟨_, _, rfl⟩ rfl (fun q => hx.parent) rfl hq.triggeredIn hq.endedIn
      (.suspends rfl rfl ⟨fun _ => hk, fun _ => he⟩)
  | triggerCalls | triggerCancels =>
    exact .issues (a := ⟨_, _, _⟩) ⟨_, _, rfl⟩ rfl (fun q => hx.parent) rfl rfl rfl .carries
  | triggerOpens hl he =>
    exact .issues (a := ⟨_, _, _⟩) ⟨_, _, rfl⟩ rfl (fun q => hx.parent) rfl rfl rfl
      (.suspends rfl rfl ⟨fun hnone => (by cases he.symm.trans hnone),
        fun hl => absurd hl (Effect.fits_of_fan? he k.nextEffect).2.2.2⟩)
  | answerSettles | cancelSettles => exact .concludes rfl rfl rfl .settles
  | answerSuspends => exact .concludes rfl rfl rfl (.suspends rfl rfl ⟨⟨_, rfl⟩, _, _, _, _, rfl⟩)
  | cancelHalted hl => exact .halts rfl hl rfl rfl rfl
  | begunWithdraws | raceHalt | allHalt => exact .passes rfl rfl (Waits.spends_detach ..)
  | raceNext | raceFull => exact .notes rfl rfl (spends_setMember ..)
  | raceDecided h => exact .decides rfl rfl h (Waits.spends_closeRace ..) _
  | allNext hk | allFull hk => exact .notes rfl rfl (spends_fill hk)
  | @allComplete k t b id slot nests start k₁ w results members hk h hw =>
    let done : Passage := .settled id (Waits.collect w.kind)
    have hw : k.waits.Spends [done] (k₁.waits.erase id) := (spends_fill hk).trans (.erase h rfl)
    exact .walks rfl rfl hw rfl rfl
  | allFailed hs h => exact .decides rfl rfl h (Waits.spends_detachEach ..) _
  | allLost hs h =>
    obtain ⟨w, hw, -⟩ := hx.exists_get? List.mem_cons_self
    cases h.symm.trans hw
  | @abort k t f p hp hl =>
    refine .passes rfl ?_ (Waits.spends_detach ..)
    rw [attemptsOf_append, attemptsOf_cascades _ fun _ => rfl]
    rfl
  | abortDone h =>
    obtain ⟨hw, ht, he⟩ := h.waits
    exact .idle rfl (attemptsOf_cascades _ (fun _ => rfl) _) hw ht he
  | conclude h =>
    obtain ⟨hw, ht, he⟩ := h.waits
    exact .idle rfl (attemptsOf_cascades _ (fun _ => rfl) _) hw ht he
  | cascadeComplete hp hl hv h =>
    obtain ⟨hw, ht, he⟩ := h.waits
    exact .idle rfl (attemptsOf_cascades _ (fun _ => rfl) _) hw ht he
  | cancelledAll => exact .idle rfl (attemptsOf_cascades _ (fun _ => rfl) _) rfl rfl rfl
  | cancelEach hp => exact .passes rfl rfl (Waits.spends_detach ..)
  | cancelOne h =>
    obtain ⟨hw, ht, he⟩ := h.waits
    exact .idle rfl rfl hw ht he

end

end SagaMachine
