import Mathlib.Logic.Relation
import SagaMachine.Proofs.Fates
import SagaMachine.Proofs.Lifetimes
import SagaMachine.Proofs.Undoing

/-!
# Who decides a combinator

A race settles with the outcome of the member that settles first, an `all` with that of the first one
that brings no value. What is withdrawn then is another member, or what is inside of one. END goes all
the way up: whatever is around an effect that ended ends with it.

Main statements: `Does.announces`, `Scenario.Visits.overtaken_or_struck`, `Scenario.Visits.ended_around`.
-/

namespace SagaMachine

/-! ## Walks upwards -/

namespace Waits

/--
What is known of the members of combinators agrees with a wait table, in which one effect is gone:
`R p x` says that `x` is a member of `p`.
-/
structure Agrees (waits : Waits) (id : EffectId) (link : Link) (R : EffectId → EffectId → Prop) :
    Prop where
  entry : ∀ {x w}, waits.get? x = some w → ∀ p, R p x ↔ w.link.parent? = some p
  self : ∀ p, R p id ↔ link.parent? = some p

/-- A member of a combinator was overtaken by another one, whose outcome is that of the combinator. -/
structure Overtakes (R : EffectId → EffectId → Prop) (S : EffectId → Signal → Prop)
    (x y m z : EffectId) : Prop where
  path : Relation.ReflTransGen R m x
  member : R y m
  other : R y z
  ne : z ≠ m
  decides : ∃ signal keys width slot, S z signal ∧ S y (raceResult keys width slot signal)

/-- What is withdrawn, or ends, where combinators are decided. -/
structure Decides (R : EffectId → EffectId → Prop) (S : EffectId → Signal → Prop)
    (ps : List Passage) : Prop where
  withdrawn : ∀ {x w}, .withdrawn x w ∈ ps → ∃ y m z, Overtakes R S x y m z
  ended : ∀ {x}, .settled x .ended ∈ ps → ∀ p, R p x → S p .ended

variable {waits : Waits} {R : EffectId → EffectId → Prop} {S : EffectId → Signal → Prop}

theorem Decides.nil : Decides R S [] where
  withdrawn h := absurd h List.not_mem_nil
  ended h := absurd h List.not_mem_nil

theorem Agrees.sub {waits' : Waits} {id p : EffectId} {link : Link} {pw : Wait}
    (h : Agrees waits id link R)
    (hsub : ∀ {x w}, waits'.get? x = some w → ∃ w', waits.get? x = some w' ∧ w'.link = w.link)
    (hp : waits.get? p = some pw) : Agrees waits' p pw.link R where
  entry hx q := by
    obtain ⟨w', hw', hl⟩ := hsub hx
    exact hl ▸ h.entry hw' q
  self := h.entry hp

theorem Decides.append {ps ps' : List Passage} (h : Decides R S ps) (h' : Decides R S ps') :
    Decides R S (ps ++ ps') where
  withdrawn hm := (List.mem_append.1 hm).elim h.withdrawn h'.withdrawn
  ended hm := (List.mem_append.1 hm).elim h.ended h'.ended

theorem Decides.settled {p : EffectId} {signal : Signal}
    (h : signal = .ended → ∀ q, R q p → S q .ended) : Decides R S [.settled p signal] where
  withdrawn hm := by cases List.mem_singleton.1 hm
  ended hm := by
    cases List.mem_singleton.1 hm
    exact h rfl

/-- What a closed combinator withdraws is inside of members that have not settled. -/
theorem path_of_withdrawn {loose loose' : List EffectId} {hole hole' : Link} {p : EffectId}
    {pw : Wait} (hF : Forest waits loose hole)
    (hE : Forest (waits.erase p) (pw.kind.members ++ loose') hole') (hp : waits.get? p = some pw)
    (hR : ∀ {x w}, waits.get? x = some w → ∀ q, R q x ↔ w.link.parent? = some q) {x : EffectId}
    {w : Wait} (hx : .withdrawn x w ∈ (detachEach (waits.erase p) pw.kind.members).1) :
    ∃ m, Relation.ReflTransGen R m x ∧ R p m ∧ waits.get? m ≠ none := by
  refine hE.forall_withdrawn_each (Q := fun x _ => ∃ m, Relation.ReflTransGen R m x ∧ R p m ∧
    waits.get? m ≠ none) ?_ ?_ x w hx
  · intro y hy wy hwy
    have hwy := get?_of_get?_erase hwy
    obtain ⟨-, -, hl⟩ := hF.of_mem_members hp hy hwy
    exact ⟨y, .refl, (hR hwy p).2 hl, by simp [hwy]⟩
  · rintro q qw y wy ⟨m, hpath, hm⟩ - - hl hwy
    exact ⟨m, hpath.tail ((hR (get?_of_get?_erase hwy) q).2 hl), hm⟩

/-- What is withdrawn where a member decides its combinator was overtaken by this member. -/
theorem decides_of_closed {loose loose' : List EffectId} {hole hole' : Link} {id p : EffectId}
    {pw : Wait} {signal : Signal} {keys : Option (List String)} {width slot : Nat}
    (hF : Forest waits loose hole)
    (hE : Forest (waits.erase p) (pw.kind.members ++ loose') hole') (hp : waits.get? p = some pw)
    (hR : ∀ {x w}, waits.get? x = some w → ∀ q, R q x ↔ w.link.parent? = some q)
    (hid : waits.get? id = none) (hm : R p id) (hs : S id signal)
    (hd : S p (raceResult keys width slot signal)) :
    Decides R S (detachEach (waits.erase p) pw.kind.members).1 where
  withdrawn {x w} hx := by
    obtain ⟨m, hpath, hpm, hpresent⟩ := path_of_withdrawn hF hE hp hR hx
    exact ⟨p, m, id, hpath, hpm, hm, fun h => hpresent (h ▸ hid), signal, keys, width, slot, hs, hd⟩
  ended hx := by
    obtain ⟨y, wy, he, -⟩ := withdrawn_of_mem_detachEach hx
    cases he

/-- An outcome without a value is passed on as it is. -/
theorem raceResult_eq {signal : Signal} (hs : ∀ v, signal ≠ .value v) (keys : Option (List String))
    (width slot : Nat) : raceResult keys width slot signal = signal := by
  cases signal with
  | value v => exact absurd rfl (hs v)
  | _ => rfl

/-- An `all` takes in a value, or it fails with the signal of its member. -/
theorem Climbable.merge_fst {task : TaskId} {id p : EffectId} {slot : Nat}
    (h : Climbable waits task id (.all p slot)) (signal : Signal) :
    (∃ v, signal = .value v ∧
      ((waits.merge p slot signal).1 = .waiting ∨ (waits.merge p slot signal).1 = .complete)) ∨
    (∀ v, signal ≠ .value v) ∧ (waits.merge p slot signal).1 = .failed signal := by
  obtain ⟨pw, hp, -, hm⟩ := h.above rfl
  obtain ⟨results, members, remaining, hk⟩ : ∃ results members remaining,
      pw.kind = .all results members remaining := by
    cases hk : pw.kind with
    | all results members remaining => exact ⟨results, members, remaining, rfl⟩
    | _ => exact (hk ▸ hm).elim
  obtain ⟨kind, -, -, hfst⟩ := merge_eq hp hk slot signal
  rw [hfst]
  cases signal with
  | value v =>
    refine Or.inl ⟨v, rfl, ?_⟩
    by_cases h0 : remaining - 1 = 0 <;> simp [h0]
  | _ => exact Or.inr ⟨nofun, rfl⟩

/-- A walk upwards decides combinators by the members that it comes from. -/
theorem Climbable.decides {task : TaskId} {id : EffectId} {link : Link} {signal : Signal}
    (h : Climbable waits task id link) (hR : Agrees waits id link R) (hid : S id signal)
    (hS : ∀ {x s}, .settled x s ∈ (climb waits task id link signal).passages → S x s) :
    Decides R S (climb waits task id link signal).passages ∧
      (signal = .ended → ∀ p, R p id → S p .ended) := by
  fun_induction climb waits task id link signal with
  | case1 waits task id signal =>
    refine ⟨.nil, fun _ p hp => ?_⟩
    cases (hR.self p).1 hp
  | case2 waits task id signal p slot hp =>
    obtain ⟨pw, hpw, -⟩ := h.above rfl
    rw [hp] at hpw
    cases hpw
  | case3 waits task id signal p slot pw hp r ih =>
    obtain ⟨pw', hpw', ht, hm⟩ := h.above rfl
    obtain rfl : pw = pw' := Option.some.inj (hp.symm.trans hpw')
    obtain ⟨keys, members, hk⟩ : ∃ keys members, pw.kind = .race keys members := by
      cases hk : pw.kind with
      | race keys members => exact ⟨keys, members, rfl⟩
      | _ => exact (hk ▸ hm).elim
    have hr : r = (raceResult keys members.length slot signal,
        detachEach (waits.erase p) pw.kind.members) := by simp [r, closeRace, hk]
    have hc : Closes waits p pw r.2.2 := by
      rw [hr]
      exact closes_detachEach h.forest hp (Or.inr rfl)
    have hsub : ∀ {x w}, r.2.2.get? x = some w → ∃ w', waits.get? x = some w' ∧ w'.link = w.link :=
      fun hx => ⟨_, (hc.old hx).2, rfl⟩
    have hSp : S p r.1 := hS (List.mem_append_left _ (List.mem_append_right _ List.mem_cons_self))
    obtain ⟨hup, hend⟩ := ih (hc.climbable h.forest (fun hx _ => h.whole hx) hp)
      (hR.sub hsub hp) hSp fun hx => hS (List.mem_append_right _ hx)
    have hclosed : Decides R S r.2.1 := by
      rw [hr] at hSp ⊢
      exact decides_of_closed h.forest (h.forest.erase_member hp List.not_mem_nil (Or.inr rfl)) hp
        hR.entry h.gone ((hR.self p).2 rfl) hid hSp
    refine ⟨(hclosed.append (.settled hend)).append hup, fun hs q hq => ?_⟩
    obtain rfl : p = q := Option.some.inj ((hR.self q).1 hq)
    have hr₁ : r.1 = .ended := by rw [hr, hs]; rfl
    exact hr₁ ▸ hSp
  | case4 waits task id signal p slot m hm =>
    refine ⟨.nil, fun hs => ?_⟩
    rcases h.merge_fst signal with ⟨v, hv, -⟩ | ⟨-, hf⟩
    · rw [hv] at hs
      cases hs
    · cases hm.symm.trans hf
  | case5 waits task id signal p slot m hm hp =>
    obtain ⟨pw, hpw, -, hmg⟩ := h.merged signal
    obtain ⟨w, hw⟩ := hmg.exists_get? hpw
    rw [hp] at hw
    cases hw
  | case6 waits task id signal p slot m hm w hw result ih =>
    obtain ⟨pw, hp, ht, hmg⟩ := h.merged signal
    have hc : Closes m.2 p w (m.2.erase p) := by
      have hc := (hmg.closes hp hw).2.2
      rw [hmg.members_of_complete hp hw hm] at hc
      exact hc
    have hsub : ∀ {x wx}, (m.2.erase p).get? x = some wx →
        ∃ w', waits.get? x = some w' ∧ w'.link = wx.link := fun hx => link_merge (hc.old hx).2
    have hSp : S p result := hS (List.mem_append_left _ List.mem_cons_self)
    obtain ⟨hup, hend⟩ := ih (hc.climbable hmg.forest (fun hx hxp => h.whole (hmg.get?_eq hxp ▸ hx)) hw)
      ((hmg.closes hp hw).2.1 ▸ hR.sub hsub hp) hSp fun hx => hS (List.mem_append_right _ hx)
    refine ⟨(Decides.settled hend).append hup, fun hs => ?_⟩
    rcases h.merge_fst signal with ⟨v, hv, -⟩ | ⟨-, hf⟩
    · rw [hv] at hs
      cases hs
    · cases hm.symm.trans hf
  | case7 waits task id signal p slot m result hm hp =>
    obtain ⟨pw, hpw, -, hmg⟩ := h.merged signal
    obtain ⟨w, hw⟩ := hmg.exists_get? hpw
    rw [hp] at hw
    cases hw
  | case8 waits task id signal p slot m result hm w hw r ih =>
    obtain ⟨pw, hp, ht, hmg⟩ := h.merged signal
    obtain ⟨hvalue, rfl⟩ : (∀ v, signal ≠ .value v) ∧ result = signal := by
      rcases h.merge_fst signal with ⟨v, -, hf | hf⟩ | ⟨hvalue, hf⟩
      · cases hm.symm.trans hf
      · cases hm.symm.trans hf
      · cases hm.symm.trans hf
        exact ⟨hvalue, rfl⟩
    have hc : Closes m.2 p w r.2 := (hmg.closes hp hw).2.2
    have hpid : id ≠ p := by
      rintro rfl
      cases h.gone.symm.trans hp
    have hsub : ∀ {x wx}, r.2.get? x = some wx → ∃ w', waits.get? x = some w' ∧ w'.link = wx.link :=
      fun hx => link_merge (hc.old hx).2
    have hentry : ∀ {x wx}, m.2.get? x = some wx → ∀ q, R q x ↔ wx.link.parent? = some q := by
      intro x wx hx q
      obtain ⟨w', hw', hl⟩ := link_merge hx
      exact hl ▸ hR.entry hw' q
    have hSp : S p result :=
      hS (List.mem_append_left _ (List.mem_append_right _ List.mem_cons_self))
    obtain ⟨hup, hend⟩ := ih (hc.climbable hmg.forest (fun hx hxp => h.whole (hmg.get?_eq hxp ▸ hx)) hw)
      ((hmg.closes hp hw).2.1 ▸ hR.sub hsub hp) hSp fun hx => hS (List.mem_append_right _ hx)
    have hclosed : Decides R S r.1 :=
      decides_of_closed hmg.forest (hmg.forest.erase_member hw List.not_mem_nil (Or.inl rfl)) hw
        hentry ((hmg.get?_eq hpid).trans h.gone) ((hR.self p).2 rfl) hid
        (raceResult_eq hvalue none 0 0 ▸ hSp)
    refine ⟨(hclosed.append (.settled hend)).append hup, fun hs q hq => ?_⟩
    obtain rfl : p = q := Option.some.inj ((hR.self q).1 hq)
    exact hs ▸ hSp

end Waits

/-! ## What events tell of members -/

/-- An effect was triggered as a member of another one. -/
def MemberOf (past : List Event) (p x : EffectId) : Prop := ∃ t e, .triggered t x (some p) e ∈ past

/-- An effect settled with a signal. -/
def SettledWith (past : List Event) (x : EffectId) (signal : Signal) : Prop :=
  .settled x signal ∈ past

/-- A combinator around an effect was decided by another member than the one the effect is in. -/
def Overtaken (past : List Event) (x : EffectId) : Prop :=
  ∃ y m z, Waits.Overtakes (MemberOf past) (SettledWith past) x y m z

/-- A task was cancelled or aborted, and is still in the table. -/
def Core.Struck (k : Core) (t : TaskId) : Prop :=
  ∃ p, k.posture t = some p ∧ (p.status = .cancelled ∨ p.status = .aborted)

/-- The signal that a frame hands on to the combinator around what settled, and this combinator. -/
def Instr.hands? : Instr → Option (Signal × Option EffectId)
  | .begun _ _ nests (.immediate signal) => some (signal, (Nest.link nests).parent?)
  | _ => none

/-- The signals that frames hand on to combinators. -/
def handsOf (F : List Instr) : List (Signal × Option EffectId) := F.filterMap Instr.hands?

/--
What the events of a frame tell: whatever is withdrawn was overtaken or belongs to a task that was
struck, END is told to the combinator around what ended, or to the task, and what is handed on was
settled.
-/
structure Announces (i : MiddlewareId) (past : List Event) (k : Core) (es : List Event)
    (G : List Instr) : Prop where
  withdrawn : ∀ {y}, .withdrawn y ∈ es →
    Overtaken past y ∨ ∃ t q e, .triggered t y q e ∈ past ∧ k.Struck t
  ended : ∀ {y q}, .settled y .ended ∈ es → MemberOf past q y →
    .settled q .ended ∈ past ∨ (.ended, some q) ∈ handsOf G
  roots : ∀ {y t e}, .settled y .ended ∈ es → .triggered t y none e ∈ past →
    ∃ b, .begun ⟨i, t⟩ b [] (.immediate .ended) ∈ G ∨ .leave ⟨i, t⟩ b .ended ∈ G
  heralds : ∀ h ∈ handsOf G, ∃ t z e, .settled z h.1 ∈ past ∧ .triggered t z h.2 e ∈ past

section

variable {i : MiddlewareId} {past past' es : List Event} {x : Instr} {k k' : Core} {F G : List Instr}
  {D : List TaskId} {t : TaskId} {y : EffectId} {signal : Signal} {waits : Waits} {as : List Attempt}

theorem Overtaken.mono (h : Overtaken past y) (hsub : past ⊆ past') : Overtaken past' y := by
  obtain ⟨p, m, z, hpath, ⟨t, e, hm⟩, ⟨u, f, ho⟩, hne, s, keys, width, slot, hz, hp⟩ := h
  have hle : ∀ a b, MemberOf past a b → MemberOf past' a b := fun _ _ ⟨t, e, h⟩ => ⟨t, e, hsub h⟩
  exact ⟨p, m, z, Relation.ReflTransGen.mono hle _ _ hpath, ⟨t, e, hsub hm⟩, ⟨u, f, hsub ho⟩, hne,
    s, keys, width, slot, hsub hz, hsub hp⟩

/-- What is pending is a member of what its entry reports to. -/
theorem Accounts.memberOf (h : Accounts waits as past) (hr : Regular past') (hsub : past ⊆ past')
    {w : Wait} (hy : waits.get? y = some w) (q : EffectId) :
    MemberOf past' q y ↔ w.link.parent? = some q := by
  obtain ⟨⟨e, he⟩, -⟩ := h.entries hy
  constructor
  · rintro ⟨u, e', he'⟩
    exact (hr.triggered_once (hsub he) he').2.1
  · intro hl
    exact ⟨w.task, e, hsub (hl ▸ he)⟩

theorem handsOf_append (F G : List Instr) : handsOf (F ++ G) = handsOf F ++ handsOf G :=
  List.filterMap_append

theorem handsOf_cons (x : Instr) (F : List Instr) :
    handsOf (x :: F) = x.hands?.toList ++ handsOf F := by
  simp only [handsOf, List.filterMap_cons]
  cases x.hands? <;> rfl

theorem handsOf_cascades {α : Type} (f : α → Instr) (hf : ∀ c, (f c).hands? = none) (cs : List α) :
    handsOf (cs.map f) = [] := by
  refine List.filterMap_eq_nil_iff.2 fun y hy => ?_
  obtain ⟨c, -, rfl⟩ := List.mem_map.1 hy
  exact hf c

theorem Begins.handsOf {expected : Option EffectId} {k₀ : Core} {begins : Option Signal}
    (h : Begins i k₀ t expected begins k' G) : handsOf G = [] := by
  cases h <;> rfl

theorem Instr.IsScript.hands {turn : Turn} {g : Instr} (h : g.IsScript turn) : handsOf [g] = [] := by
  cases g with
  | advance | polled => rfl
  | _ => exact h.elim

theorem Instr.IsJob.hands {g : Instr} (h : g.IsJob) : handsOf [g] = [] := by
  cases g with
  | emit | forwarded | schedule => rfl
  | _ => exact h.elim

namespace Announces

/-- No effect comes to its end. -/
theorem mute (he : endedIn es = []) (hG : handsOf G = []) : Announces i past k es G where
  withdrawn {y} hm := by
    have hy : y ∈ endedIn es := List.mem_filterMap.2 ⟨_, hm, rfl⟩
    rw [he] at hy
    cases hy
  ended {y q} hm := by
    have hy : y ∈ endedIn es := List.mem_filterMap.2 ⟨_, hm, rfl⟩
    rw [he] at hy
    cases hy
  roots {y t e} hm := by
    have hy : y ∈ endedIn es := List.mem_filterMap.2 ⟨_, hm, rfl⟩
    rw [he] at hy
    cases hy
  heralds h hh := by
    rw [hG] at hh
    cases hh

/-- A walk decides combinators. -/
theorem decides {ps : List Passage} (h : Waits.Decides (MemberOf past) (SettledWith past) ps)
    (hroot : ∀ {y t e}, .settled y .ended ∈ ps → .triggered t y none e ∈ past →
      ∃ b, .leave ⟨i, t⟩ b .ended ∈ G) (hG : handsOf G = []) : Announces i past k (ps.map Passage.event) G where
  withdrawn {y} hm := by
    obtain ⟨p, hp, he⟩ := List.mem_map.1 hm
    cases p with
    | withdrawn z w =>
      cases he
      exact Or.inl (h.withdrawn hp)
    | settled => cases he
  ended {y q} hm hq := by
    obtain ⟨p, hp, he⟩ := List.mem_map.1 hm
    cases p with
    | withdrawn => cases he
    | settled z s =>
      cases he
      exact Or.inl (h.ended hp q hq)
  roots {y t e} hm ht := by
    obtain ⟨p, hp, he⟩ := List.mem_map.1 hm
    cases p with
    | withdrawn => cases he
    | settled z s =>
      cases he
      obtain ⟨b, hb⟩ := hroot hp ht
      exact ⟨b, Or.inr hb⟩
  heralds h hh := by
    rw [hG] at hh
    cases hh

/-- What settled last is handed on. -/
theorem hands {later : List Event} {b : Body} {nests : List Nest} {e : Effect}
    (hr : Regular past) (hsub : ∀ ev ∈ later ++ [.settled y signal], ev ∈ past)
    (ht : .triggered t y (Nest.link nests).parent? e ∈ past)
    (hw : ∀ z, .withdrawn z ∈ later → Overtaken past z)
    (hs : ∀ z s, .settled z s ∉ later) :
    Announces i past k (later ++ [.settled y signal])
      [.begun ⟨i, t⟩ b nests (.immediate signal)] where
  withdrawn {z} hm := by
    rcases List.mem_append.1 hm with hm | hm
    · exact Or.inl (hw z hm)
    · cases List.mem_singleton.1 hm
  ended {z q} hm := by
    rintro ⟨u, e', hq⟩
    rcases List.mem_append.1 hm with hm | hm
    · exact absurd hm (hs z _)
    · cases List.mem_singleton.1 hm
      obtain ⟨-, hl, -⟩ := hr.triggered_once hq ht
      exact Or.inr (List.mem_singleton.2 (by rw [hl]))
  roots {z u e'} hm hu := by
    rcases List.mem_append.1 hm with hm | hm
    · exact absurd hm (hs z _)
    · cases List.mem_singleton.1 hm
      obtain ⟨rfl, hl, -⟩ := hr.triggered_once hu ht
      obtain rfl : nests = [] := by
        cases nests with
        | nil => rfl
        | cons n nests =>
          rw [Starting.link_parent?] at hl
          cases hl
      exact ⟨b, Or.inl List.mem_cons_self⟩
  heralds h hh := by
    cases List.mem_singleton.1 hh
    exact ⟨t, y, e, hsub _ (List.mem_append_right _ (List.mem_singleton.2 rfl)), ht⟩

/-- What a struck task waits for is withdrawn. -/
theorem strikes {ids : List EffectId} {loose : List EffectId}
    (hF : waits.Forest (ids ++ loose) .task) (hA : Accounts waits as past) (hsub : past ⊆ past')
    (ht : ∀ y ∈ ids, ∀ w, waits.get? y = some w → w.task = t) (hk : k.Struck t)
    (hG : handsOf G = []) : Announces i past' k ((waits.detach ids).1.map Passage.event) G where
  withdrawn {y} hm := by
    obtain ⟨p, hp, he⟩ := List.mem_map.1 hm
    obtain ⟨z, w, rfl, hz⟩ := Waits.withdrawn_of_mem_detach hp
    cases he
    have htask : w.task = t := hF.forall_withdrawn (Q := fun _ w => w.task = t) ht
      (fun q qw x xw hq _ hxw _ _ => hxw.trans hq) _ _ hp
    obtain ⟨⟨e, he⟩, -⟩ := hA.entries hz
    exact Or.inr ⟨t, _, e, hsub (htask ▸ he), hk⟩
  ended hm := absurd hm Waits.not_settled_detach
  roots hm := absurd hm Waits.not_settled_detach
  heralds h hh := by
    rw [hG] at hh
    cases hh

end Announces

/-- What is around a settlement that is performed is decided by it. -/
theorem Tabled.decides {F' : List Instr} (hT : Tabled k F' past) (hl : looseOf F' = [])
    (hnests : ∀ g ∈ F', g.nests = []) (hA : Accounts k.waits as past) (hn : LeafName past y)
    (hr : Regular past') (hsub : past ⊆ past')
    (hps : ∀ ev ∈ (Waits.settle k.waits y signal).passages.map Passage.event, ev ∈ past') :
    Waits.Decides (MemberOf past') (SettledWith past')
      (Waits.settle k.waits y signal).passages := by
  have hwhole : ∀ {z wz}, k.waits.get? z = some wz → wz.kind.Whole := fun hz =>
    hT.whole hz fun g hg => by
      rw [hnests g hg]
      exact List.not_mem_nil
  have hF : k.waits.Forest [] .task := hl ▸ hT.forest
  cases hy : k.waits.get? y with
  | none =>
    rw [Waits.settle_of_absent hy]
    exact .nil
  | some wait =>
    rw [Waits.settle_eq hy] at hps ⊢
    have hS : ∀ {z s}, .settled z s ∈
        ((Waits.climb (k.waits.erase y) wait.task y wait.link signal).after
          [.settled y signal]).passages → SettledWith past' z s :=
      fun hm => hps _ (List.mem_map_of_mem (f := Passage.event) hm)
    obtain ⟨hup, hend⟩ := (Waits.climbable_erase hF hwhole hy (hT.leaf hy hn).members).decides
      (R := MemberOf past') (S := SettledWith past')
      ⟨fun hx => hA.memberOf hr hsub (Waits.get?_of_get?_erase hx), hA.memberOf hr hsub hy⟩
      (hS List.mem_cons_self) fun hm => hS (List.mem_cons_of_mem _ hm)
    exact (Waits.Decides.settled hend).append hup

/-- The settlement of the effect that a task is parked on wakes the task. -/
theorem Tabled.wakes_root {F' : List Instr} (hT : Tabled k F' past) (hl : looseOf F' = [])
    (hnests : ∀ g ∈ F', g.nests = []) (hA : Accounts k.waits as past) (hn : LeafName past y)
    (hr : Regular past') (hsub : past ⊆ past') {z : EffectId} {s : Signal} {e : Effect}
    (hm : .settled z s ∈ (Waits.settle k.waits y signal).passages)
    (ht : .triggered t z none e ∈ past') :
    (Waits.settle k.waits y signal).wakeup = some ⟨t, z, s⟩ ∧
      ∃ w, k.waits.get? z = some w ∧ w.link = .task ∧ w.task = t := by
  have hwhole : ∀ {z wz}, k.waits.get? z = some wz → wz.kind.Whole := fun hz =>
    hT.whole hz fun g hg => by
      rw [hnests g hg]
      exact List.not_mem_nil
  have hF : k.waits.Forest [] .task := hl ▸ hT.forest
  have hentry : ∀ {w}, k.waits.get? z = some w → w.link = .task ∧ w.task = t := by
    intro w hw
    obtain ⟨⟨e', he'⟩, -⟩ := hA.entries hw
    obtain ⟨htask, hlink, -⟩ := hr.triggered_once (hsub he') ht
    refine ⟨?_, htask⟩
    cases hl : w.link <;> rw [hl] at hlink <;> first | rfl | cases hlink
  have hinner : ∀ {ps : List Passage}, k.waits.Inner ps → .settled z s ∉ ps := by
    intro ps hi hm
    obtain ⟨w, hw, hne⟩ := hi z s hm
    exact hne (hentry hw).1
  rcases Waits.tells_settle k.waits y signal with ⟨-, hi⟩ | ⟨u, ps, hu, hps, hi⟩
  · exact absurd hm (hinner hi)
  · rw [hps] at hm
    rcases List.mem_append.1 hm with hm | hm
    · exact absurd hm (hinner hi)
    · obtain ⟨task, effect, signal'⟩ := u
      obtain ⟨rfl, rfl⟩ : z = effect ∧ s = signal' := by
        cases List.mem_singleton.1 hm
        exact ⟨rfl, rfl⟩
      cases hy : k.waits.get? y with
      | none =>
        rw [Waits.settle_of_absent hy] at hu
        cases hu
      | some wait =>
        obtain ⟨htask, -, hroot⟩ :=
          (Waits.settles_settle hF hwhole hy (hT.leaf hy hn).members signal).wakeup hu
        obtain ⟨w, hw, hwt⟩ : ∃ w, k.waits.get? z = some w ∧ w.task = wait.task := by
          rcases hroot with ⟨rfl, -⟩ | ⟨w, hw, hwt, -⟩
          · exact ⟨wait, hy, rfl⟩
          · exact ⟨w, Waits.get?_of_get?_erase hw, hwt⟩
        obtain ⟨hlink, hwtask⟩ := hentry hw
        obtain rfl : task = t := htask.trans (hwt.symm.trans hwtask)
        exact ⟨hu, w, hw, hlink, hwtask⟩

/-- A task that is parked on an effect that ends is told so. -/
theorem Begins.told (h : Begins i { k with waits } t (some y) (some .ended) k' G)
    (hT : Tabled k F past) (ho : Orderly i k F) (hF : looseOf F = [])
    (hquiet : k.current = none ∧ ∀ g ∈ F, g.finishes = []) {w : Wait} (hy : k.waits.get? y = some w)
    (hl : w.link = .task) (ht : w.task = t) : ∃ b, .leave ⟨i, t⟩ b .ended ∈ G := by
  obtain ⟨p, hp, hb, hpend⟩ := hT.rooted hy hl (by rw [hF]; exact List.not_mem_nil)
  rw [ht] at hp
  cases h with
  | skip h =>
    rcases h p hp with hterm | hne | hnb
    · rcases (ho.tasks hp).terminal hterm with hc | ⟨g, hg, hm⟩
      · cases hquiet.1.symm.trans hc
      · rw [hquiet.2 g hg] at hm
        cases hm
    · exact absurd hpend hne
    · cases hb.symm.trans hnb
  | poll _ _ _ _ _ ha => cases ha
  | leave _ _ _ _ b => exact ⟨b, List.mem_cons_self⟩

/-- The member of a combinator that is being started decides it. -/
theorem Tabled.decides_open {F' : List Instr} (hT : Tabled k (x :: F') past) {nests : List Nest}
    {n : Nest} (hloose : x.loose = n.id :: nests.map Nest.id) (hA : Accounts k.waits as past)
    (hr : Regular past') (hsub : past ⊆ past') {w : Wait} (hw : k.waits.get? n.id = some w)
    (hm : MemberOf past' n.id y) (hy : .settled y signal ∈ past)
    {keys : Option (List String)} {width slot : Nat}
    (hd : .settled n.id (Waits.raceResult keys width slot signal) ∈ past') :
    Waits.Decides (MemberOf past') (SettledWith past')
      (Waits.detachEach (k.waits.erase n.id) w.kind.members).1 := by
  have hF := hT.forest
  rw [show looseOf (x :: F') = n.id :: (nests.map Nest.id ++ looseOf F') from
    congrArg (· ++ looseOf F') hloose] at hF
  have hgone : k.waits.get? y = none := by
    by_contra hne
    obtain ⟨wy, hwy⟩ := Option.ne_none_iff_exists'.1 hne
    exact (hA.entries hwy).2 (List.mem_filterMap.2 ⟨_, hy, rfl⟩)
  exact Waits.decides_of_closed hF (hF.erase_loose hw) hw (fun hx => hA.memberOf hr hsub hx) hgone hm
    (hsub hy) hd

/-- A combinator that is being started is decided, and what was started of it is withdrawn. -/
theorem Tabled.announces_close {F' : List Instr} (hT : Tabled k (x :: F') past) {nests : List Nest}
    {n : Nest} {b : Body} (hloose : x.loose = n.id :: nests.map Nest.id)
    (hA : Accounts k.waits as past) (hr : Regular past') (hsub : past ⊆ past') {w : Wait}
    (hw : k.waits.get? n.id = some w) (htask : w.task = t) (hlink : w.link = Nest.link nests)
    (hx : ∃ t z e, .settled z signal ∈ past ∧ .triggered t z (some n.id) e ∈ past)
    {result : Signal} {keys : Option (List String)} {width slot : Nat}
    (hresult : Waits.raceResult keys width slot signal = result)
    (hnew : ∀ ev ∈ (Waits.detachEach (k.waits.erase n.id) w.kind.members).1.map Passage.event ++
      [.settled n.id result], ev ∈ past') :
    Announces i past' k' ((Waits.detachEach (k.waits.erase n.id) w.kind.members).1.map Passage.event ++
        [.settled n.id result]) [.begun ⟨i, t⟩ b nests (.immediate result)] := by
  obtain ⟨u, z, e, hz, hm⟩ := hx
  obtain ⟨⟨e', he'⟩, -⟩ := hA.entries hw
  subst hresult htask
  have hdecides := hT.decides_open hloose hA hr hsub hw ⟨u, e, hsub hm⟩ hz
    (hnew _ (List.mem_append_right _ List.mem_cons_self))
  refine .hands hr hnew (hsub (hlink ▸ he')) (fun y hy => ?_) fun y s => Waits.not_settled_detachEach
  obtain ⟨p, hp, hpe⟩ := List.mem_map.1 hy
  obtain ⟨y', wy, rfl, -⟩ := Waits.withdrawn_of_mem_detachEach hp
  cases hpe
  exact hdecides.withdrawn hp

/-- What a struck task is parked on is withdrawn. -/
theorem Tabled.strikes {F' : List Instr} (hT : Tabled k F' past) (hA : Accounts k.waits as past)
    (hsub : past ⊆ past') {p : Posture} (hp : k.posture t = some p) (hk : k'.Struck t)
    (hG : handsOf G = []) : Announces i past' k' (k.withdrawn p.pending.toList) G := by
  cases hy : p.pending with
  | none =>
    refine .mute ?_ hG
    simp [Core.withdrawn, Waits.detach, endedIn]
  | some y =>
    cases hw : k.waits.get? y with
    | none =>
      refine .mute ?_ hG
      show endedIn ((k.waits.detach [y]).1.map Passage.event) = []
      rw [Waits.detach, hw]
      simp [Waits.detach, endedIn]
    | some w =>
      obtain ⟨ht, hl, -⟩ := hT.pending hp hy hw
      refine .strikes (hT.forest.loosen hw hl) hA hsub (fun z hz wz hwz => ?_) hk hG
      cases List.mem_singleton.1 hz
      exact Option.some.inj (hw.symm.trans hwz) ▸ ht

/-- What the events of a frame tell of the effects that come to their ends. -/
theorem Does.announces (h : Does i past x k k' G D es) (hs : Stack i k.current (x :: F))
    (ho : Orderly i k (x :: F)) (hT : Tabled k (x :: F) past)
    (hA : Accounts k.waits (attemptsOf (x :: F)) past) (hj : Judged k (x :: F))
    (hr : Regular (es.reverse ++ past))
    (hx : ∀ h, x.hands? = some h →
      ∃ t z e, .settled z h.1 ∈ past ∧ .triggered t z h.2 e ∈ past) :
    Announces i (es.reverse ++ past) k' es G ∧
      ∀ q, x.hands? = some (.ended, some q) → .settled q .ended ∈ es.reverse ++ past := by
  have hsub : past ⊆ es.reverse ++ past := fun _ => List.mem_append_right _
  have hnew : ∀ ev ∈ es, ev ∈ es.reverse ++ past := fun _ hm =>
    List.mem_append_left _ (List.mem_reverse.2 hm)
  have hstart := hT.frames x List.mem_cons_self
  have hrelies := ho.frames x List.mem_cons_self
  have hstruck : ∀ {u}, x.turn? = some u → ¬ k.Live u → k.Struck u := by
    intro u hu hl
    have hcur := (hs.of_turn hu).1
    obtain ⟨-, p, hp⟩ := ho.driver hcur
    rcases hj.current u hcur with hlive | ⟨-, hstands⟩
    · exact absurd hlive hl
    · exact ⟨p, hp, Or.inl (hstands p hp)⟩
  have hfree : x.hands? = none → ∀ q, x.hands? = some (.ended, some q) →
      .settled q .ended ∈ es.reverse ++ past := fun hx q hq => by cases hx.symm.trans hq
  have hmute : ∀ {es : List Event} {G : List Instr}, x.hands? = none → endedIn es = [] →
      handsOf G = [] → Announces i (es.reverse ++ past) k' es G ∧
        ∀ q, x.hands? = some (.ended, some q) → .settled q .ended ∈ es.reverse ++ past := by
    intro es G hx he hG
    exact ⟨.mute he hG, fun q hq => by cases hx.symm.trans hq⟩
  have htop : ∀ {t b start}, x = .begun ⟨i, t⟩ b [] start → handsOf G = [] → endedIn es = [] →
      Announces i (es.reverse ++ past) k' es G ∧
        ∀ q, x.hands? = some (.ended, some q) → .settled q .ended ∈ es.reverse ++ past := by
    rintro t b start rfl hG he
    refine ⟨.mute he hG, fun q hq => ?_⟩
    cases start <;> cases hq
  cases h with
  | rest | next | schedule | polledHalted | polledComplete | polledYielded | triggerHalted
  | triggerCalls | triggerCancels | triggerOpens
  | leaveSuspended | leaveYielded | leaveFinished | leaveEnded | leaveFailed | leaveHalted
  | returnedLate | returned | returnedHeld | abortLate | abortHalts | cascadeAbort | cascadeLate
  | cancelLate | cancel | cancelledLate | cancelHalts | answerSuspends | cancelHalted | raceNext
  | raceFull => exact hmute rfl rfl rfl
  | begunHalt | begunSuspends | begunHalted | begunEnds | begunPolls | begunYields =>
    exact htop rfl rfl rfl
  | start h | resume h => exact hmute rfl rfl h.handsOf
  | @settle k id signal hn h =>
    obtain ⟨-, rfl⟩ := hs.of_works trivial
    have hnests : ∀ g ∈ [Instr.perform i (.reaction (.settle id signal)), .drain i],
        g.nests = [] := by simp [Instr.nests]
    refine ⟨.decides (hT.decides rfl hnests hA hn hr hsub hnew) (fun hm ht => ?_) rfl, hfree rfl⟩
    obtain ⟨hw, -⟩ := hT.wakes_root rfl hnests hA hn hr hsub hm ht
    cases h.symm.trans hw
  | @wake k id signal u k' G hn h hb =>
    obtain ⟨hcur, rfl⟩ := hs.of_works trivial
    have hnests : ∀ g ∈ [Instr.perform i (.reaction (.settle id signal)), .drain i],
        g.nests = [] := by simp [Instr.nests]
    refine ⟨.decides (hT.decides rfl hnests hA hn hr hsub hnew) (fun hm ht => ?_) hb.handsOf,
      hfree rfl⟩
    obtain ⟨hw, w, hy, hl, htask⟩ := hT.wakes_root rfl hnests hA hn hr hsub hm ht
    cases h.symm.trans hw
    exact hb.told hT ho rfl ⟨hcur, by simp [Instr.finishes]⟩ hy hl htask
  | errand hG hs hq =>
    refine hmute rfl hq.endedIn ?_
    rcases hG with rfl | ⟨g, rfl, hg⟩
    · rfl
    · exact hg.hands
  | emit hq => exact hmute rfl hq.endedIn rfl
  | forwarded _ _ hq => exact hmute rfl hq.endedIn rfl
  | forwardedCall _ hq => exact hmute rfl hq.endedIn rfl
  | poll hg | advance hg => exact hmute rfl rfl hg.hands
  | @triggerSettles k t b nests e signal es hl he hq =>
    refine ⟨.hands hr hnew (hnew _ List.mem_cons_self) (fun z hm => ?_) fun z s hm => ?_, hfree rfl⟩
    · rcases List.mem_cons.1 hm with hm | hm
      · cases hm
      · exact (hq _ hm).elim
    · rcases List.mem_cons.1 hm with hm | hm
      · cases hm
      · exact (hq _ hm).elim
  | @triggerForks k t b nests e hl he saga detached v =>
    refine ⟨?_, hfree rfl⟩
    show Announces _ _ _ ([_, _] ++ [_]) _
    exact .hands hr hnew (hnew _ List.mem_cons_self) (by simp) (by simp)
  | triggerSuspends hl he hk hs hq => exact hmute rfl hq.endedIn rfl
  | answerSettles | cancelSettles =>
    obtain ⟨⟨e, he⟩, -, -⟩ := hA.attempts _ (List.mem_cons_self ..)
    refine ⟨?_, hfree rfl⟩
    show Announces _ _ _ ([] ++ [_]) _
    exact .hands hr hnew (hsub he) (by simp) (by simp)
  | @begunWithdraws k t b id hl =>
    obtain ⟨-, -, -, w, hw, ht, -⟩ := hstart
    refine ⟨.strikes hT.forest hA hsub (fun z hz wz hwz => ?_) (hstruck rfl hl) rfl, hfree rfl⟩
    cases List.mem_singleton.1 hz
    exact Option.some.inj (hw.symm.trans hwz) ▸ ht
  | @raceHalt k t b id slot rest nests | @allHalt k t b id slot rest nests =>
    obtain ⟨⟨w, hw, ht, -⟩, -⟩ := hstart
    refine ⟨.strikes hT.forest hA hsub (fun z hz wz hwz => ?_) (hstruck rfl hrelies) rfl, hfree rfl⟩
    cases List.mem_singleton.1 hz
    exact Option.some.inj (hw.symm.trans hwz) ▸ ht
  | raceLost h =>
    obtain ⟨w, hw, -⟩ := hstart.exists_get? List.mem_cons_self
    cases h.symm.trans hw
  | @raceDecided k t b id slot rest nests signal w h =>
    obtain ⟨⟨w', hw, htask, hlink, hfits⟩, -, -⟩ := hstart
    obtain rfl : w = w' := Option.some.inj (h.symm.trans hw)
    obtain ⟨keys, members, hk⟩ : ∃ keys members, w.kind = .race keys members := by
      cases hk : w.kind with
      | race keys members => exact ⟨keys, members, rfl⟩
      | _ => exact (hk ▸ hfits).elim
    generalize hr' : Waits.closeRace (k.waits.erase id) w.kind slot signal = r at *
    obtain rfl : (Waits.raceResult keys members.length slot signal,
        Waits.detachEach (k.waits.erase id) w.kind.members) = r := by
      simp [← hr', Waits.closeRace, hk]
    refine ⟨hT.announces_close rfl hA hr hsub hw htask hlink (hx _ rfl) rfl hnew, fun q hq => ?_⟩
    cases hq
    exact hnew _ (List.mem_append_right _ List.mem_cons_self)
  | allNext hk | allFull hk =>
    refine ⟨.mute rfl rfl, fun q hq => ?_⟩
    rcases hk with ⟨member, rfl, -⟩ | ⟨v, rfl, -⟩ <;> cases hq
  | @allComplete k t b id slot nests start k₁ w results members hk h hw =>
    obtain ⟨⟨w', hw', rfl, hlink, -⟩, -, -⟩ : Open k.waits t (.all id slot [] :: nests) := by
      rcases hk with ⟨member, rfl, -⟩ | ⟨v, rfl, -⟩
      · exact hstart.1
      · exact hstart
    obtain ⟨⟨e, he⟩, -⟩ := hA.entries hw'
    refine ⟨?_, fun q hq => ?_⟩
    · show Announces _ _ _ ([] ++ [_]) _
      exact .hands hr hnew (hsub (hlink ▸ he)) (by simp) (by simp)
    · rcases hk with ⟨member, rfl, -⟩ | ⟨v, rfl, -⟩ <;> cases hq
  | @allFailed k t b id slot rest nests signal w hvalue h =>
    obtain ⟨⟨w', hw, htask, hlink, -⟩, -, -⟩ := hstart
    obtain rfl : w = w' := Option.some.inj (h.symm.trans hw)
    refine ⟨hT.announces_close (n := .all id slot rest) rfl hA hr hsub hw htask hlink (hx _ rfl)
      (Waits.raceResult_eq hvalue none 0 0) hnew, fun q hq => ?_⟩
    cases hq
    exact hnew _ (List.mem_append_right _ List.mem_cons_self)
  | allLost hs h =>
    obtain ⟨w, hw, -⟩ := hstart.exists_get? List.mem_cons_self
    cases h.symm.trans hw
  | @abort k t f p hp hl =>
    refine ⟨hT.strikes hA hsub hp ⟨{ p with status := .aborted, pending := none, hasBody := false },
      ?_, Or.inr rfl⟩ ?_, hfree rfl⟩
    · show (k.alter t _).posture t = _
      rw [Core.posture_alter, if_pos rfl, hp]
      rfl
    · rw [handsOf_append, handsOf_cascades (Instr.cancel i) fun _ => rfl]
      rfl
  | abortDone h | conclude h | cascadeComplete _ _ _ h =>
    exact hmute rfl h.waits.2.2 (handsOf_cascades _ (fun _ => rfl) _)
  | cancelledAll => exact hmute rfl rfl (handsOf_cascades _ (fun _ => rfl) _)
  | @cancelEach k t rest cascades p hp =>
    have hstands := (hj.frames _ List.mem_cons_self : ∀ u ∈ t :: rest, k.Stands u .cancelled)
    refine ⟨hT.strikes hA hsub hp ⟨{ p with pending := none, hasBody := false }, ?_, Or.inl ?_⟩ rfl,
      hfree rfl⟩
    · show (k.alter t _).posture t = _
      rw [Core.posture_alter, if_pos rfl, hp]
      rfl
    · exact (hstands t List.mem_cons_self).2 p hp
  | cancelOne h => exact hmute rfl h.waits.2.2 rfl

theorem handsOf_of_calm (h : ∀ g ∈ F, ¬ g.Urgent) : handsOf F = [] := by
  refine List.filterMap_eq_nil_iff.2 fun g hg => ?_
  have hu := h g hg
  cases g with
  | begun => exact absurd trivial hu
  | _ => rfl

theorem Intervenes.handsOf (h : Intervenes i past k k' G es) : handsOf G = [] := by
  cases h with
  | quietly | queues | sends => rfl
  | spawns h | settles _ h _ | cancels h => cases h <;> rfl

end

/-! ## END goes all the way up -/

/-- What is around a combinator that is being started is being started as well. -/
theorem Open.reports_open {waits : Waits} {as : List Attempt} {past : List Event} {u t : TaskId}
    {nests : List Nest} {p q : EffectId} {e : Effect} (h : Open waits u nests)
    (hA : Accounts waits as past) (hr : Regular past) (hq : q ∈ nests.map Nest.id)
    (ht : .triggered t q (some p) e ∈ past) : p ∈ nests.map Nest.id := by
  induction nests with
  | nil => cases hq
  | cons n nests ih =>
    obtain ⟨⟨w, hw, -, hlink, -⟩, -, hopen⟩ := h
    rcases List.mem_cons.1 hq with rfl | hq
    · obtain ⟨⟨e', he'⟩, -⟩ := hA.entries hw
      obtain ⟨-, hp, -⟩ := hr.triggered_once he' ht
      rw [hlink] at hp
      cases nests with
      | nil => cases hp
      | cons n' nests =>
        rw [Starting.link_parent?] at hp
        exact List.mem_cons_of_mem _ (Option.some.inj hp ▸ List.mem_cons_self)
    · exact List.mem_cons_of_mem _ (ih hopen hq)

theorem Open.around {waits : Waits} {as : List Attempt} {past : List Event} {u : TaskId}
    {nests : List Nest} {p q : EffectId} (h : Open waits u nests) (hA : Accounts waits as past)
    (hr : Regular past) (hq : q ∈ nests.map Nest.id) (hb : Beneath past p q) :
    p ∈ nests.map Nest.id := by
  induction hb with
  | member ht => exact h.reports_open hA hr hq ht
  | deeper _ ht ih => exact ih (h.reports_open hA hr hq ht)

/-- What frames hand on was settled, and END is told to whatever is around what ended. -/
structure View.Hands (v : View) : Prop where
  heralds : ∀ h ∈ handsOf v.frames, ∃ t z e, .settled z h.1 ∈ v.past ∧ .triggered t z h.2 e ∈ v.past
  ended : ∀ {y q}, .settled y .ended ∈ v.past → MemberOf v.past q y →
    .settled q .ended ∈ v.past ∨ (.ended, some q) ∈ handsOf v.frames

/-- A task was cancelled or aborted. -/
def World.Struck (w : World) (t : TaskRef) : Prop :=
  w.Created t ∧ (w.statusOf t = .cancelled ∨ w.statusOf t = .aborted)

section

variable {s : Scenario} {c c' : Config} {w : World} {i : MiddlewareId} {x y : EffectId}
  {t : TaskId} {q : Option EffectId} {e : Effect}

/-- Events that neither trigger nor settle an effect change nothing. -/
theorem View.Hands.onto {v v' : View} (hv : v.Hands) (es : List Event)
    (hp : v'.past = es.reverse ++ v.past) (ht : triggeredIn es = []) (he : endedIn es = [])
    (hF : handsOf v'.frames = handsOf v.frames) : v'.Hands where
  heralds h hh := by
    obtain ⟨t, z, e, hz, hm⟩ := hv.heralds h (hF ▸ hh)
    exact ⟨t, z, e, hp ▸ List.mem_append_right _ hz, hp ▸ List.mem_append_right _ hm⟩
  ended {y q} hy := by
    rintro ⟨t, e, hm⟩
    have hold : ∀ ev ∈ v'.past, ev ∈ es ∨ ev ∈ v.past := fun ev hev => by
      rw [hp] at hev
      exact (List.mem_append.1 hev).imp_left List.mem_reverse.1
    have hy' : .settled y .ended ∈ v.past := (hold _ hy).resolve_left fun hn => by
      have hn : y ∈ endedIn es := List.mem_filterMap.2 ⟨_, hn, rfl⟩
      rw [he] at hn
      cases hn
    have hm' : .triggered t y (some q) e ∈ v.past := (hold _ hm).resolve_left (not_triggered_of_nil ht)
    rcases hv.ended hy' ⟨t, e, hm'⟩ with hq | hq
    · exact Or.inl (hp ▸ List.mem_append_right _ hq)
    · exact Or.inr (hF ▸ hq)

/-- Whatever was settled before is settled inside of what was triggered before. -/
theorem Regular.memberOf_of_ended {past past' : List Event} {p : EffectId} (h : Regular past)
    (h' : Regular past') (hsub : past ⊆ past') (hy : y ∈ endedIn past) (hm : MemberOf past' p y) :
    MemberOf past p y := by
  obtain ⟨u, q, e, ht⟩ := mem_triggeredIn.1 (h.triggered_of_ended hy)
  obtain ⟨u', e', ht'⟩ := hm
  obtain ⟨rfl, rfl, rfl⟩ := h'.triggered_once (hsub ht) ht'
  exact ⟨u, e, ht⟩

theorem View.Hands.move {v v' : View} (hv : v.Hands) (hk : Kept i v) (hj : Judged v.core v.frames)
    (hm : Moves i v v') : v'.Hands := by
  have hk' := hk.move hm
  cases hm with
  | @does alive k F D past x k' G D' es hd hu =>
    cases alive with
    | false => cases (hk.sound.framed.dead rfl).1
    | true =>
      have hF : handsOf F = [] := handsOf_of_calm hu
      have hsub : past ⊆ es.reverse ++ past := fun _ => List.mem_append_right _
      have hcons : handsOf (x :: F) = x.hands?.toList := by rw [handsOf_cons, hF, List.append_nil]
      have happ : handsOf (G ++ F) = handsOf G := by rw [handsOf_append, hF, List.append_nil]
      obtain ⟨ha, hup⟩ := hd.announces hk.sound.framed.stack hk.sound.orderly (hk.sound.tabled rfl)
        (hk.accounts rfl) hj hk'.regular fun h hh =>
          hv.heralds h (by rw [hcons, hh]; exact List.mem_cons_self)
      refine ⟨fun h hh => ha.heralds h (happ ▸ hh), fun {y q} hy hq => ?_⟩
      rcases List.mem_append.1 hy with hnew | hold
      · exact happ ▸ ha.ended (List.mem_reverse.1 hnew) hq
      · have hq' := hk.regular.memberOf_of_ended hk'.regular hsub
          (List.mem_filterMap.2 ⟨_, hold, rfl⟩) hq
        rcases hv.ended hold hq' with hq | hq
        · exact Or.inl (hsub hq)
        · rw [hcons, Option.mem_toList] at hq
          exact Or.inl (hup q hq)
  | @intervenes k F D past k' G es hi hu =>
    obtain ⟨-, -, ht, he⟩ := hi.idle
    refine hv.onto es rfl ht he ?_
    show handsOf (G ++ F) = handsOf F
    rw [handsOf_append, hi.handsOf, List.nil_append]
  | still => exact hv
  | @drops alive k F t D past hu => exact hv.onto [.bodyDropped t] rfl rfl rfl rfl
  | @dies k past D hD => exact hv.onto [] rfl rfl rfl rfl

namespace Scenario.Visits

theorem hands (h : s.Visits c) (hi : c.world.Has i) : (c.view i).Hands := by
  have hv := h.invariant (P := fun v => Kept i v ∧ Judged v.core v.frames ∧ v.Hands)
    ⟨⟨.start i, .nil, fun _ => .start⟩, .start, ⟨nofun, nofun⟩⟩
    (fun hv hm => ⟨hv.1.move hm, hv.2.1.move hv.1.sound hm, hv.2.2.move hv.1 hv.2.1 hm⟩) hi
  exact hv.2.2

/-- A task that was struck stays so. -/
theorem struck_step {t : TaskRef} (h : s.Visits c) (hi : c.world.Has t.owner)
    (hc : c.step = some c') (ha : c'.world.Alive t.owner) (ht : c.world.Struck t) :
    c'.world.Struck t := by
  obtain ⟨hcreated, hs⟩ := ht
  obtain ⟨es, -, hm⟩ := h.matures hi hc ha
  have hb := h.status_step hi hc ha hcreated
  have hterm : (c.world.statusOf t).isTerminal = true := by
    rcases hs with hs | hs <;> rw [hs] <;> rfl
  exact ⟨hcreated.mature hm, by rw [hb.of_terminal hterm]; exact hs⟩

/-- What the events of a step tell, where an effect comes to its end. -/
theorem announces (h : s.Visits c) (hc : c.step = some c') (ha : c'.world.Alive i) {ev : Event}
    (hev : ev.ends? = some x) (hold : ev ∉ c.world.past i) (hnew : ev ∈ c'.world.past i) :
    ∃ G es, ev ∈ es ∧ (∀ g ∈ G, g ∈ c'.todo) ∧
      Announces i (c'.world.past i) (c'.world.core i) es G := by
  obtain ⟨todo, w⟩ := c
  cases todo with
  | nil => cases hc
  | cons x₀ rest =>
    have hi := (h.knows.has_iff hc i).1 ha.has
    have haw : w.Alive i := h.alive_of_step hi hc ha
    obtain ⟨G, D, es, ho, hdoes, hG, hpast, -, hnew⟩ := h.own_of_event hi hc (Or.inr hev) hold hnew
    have hF : framesOf i (x₀ :: rest) = x₀ :: framesOf i rest := by simp [framesOf, ho]
    obtain ⟨⟨hframed, horderly, htabled⟩, -, haccounts⟩ := h.kept hi
    obtain ⟨hann, -⟩ := hdoes.announces (hF ▸ hframed.stack) (hF ▸ horderly)
      (hF ▸ htabled (Config.alive_iff.2 haw)) (hF ▸ haccounts (Config.alive_iff.2 haw))
      (hF ▸ h.judged hi)
      (hpast ▸ ((h.step hc).kept ha.has).regular) fun g hg =>
        (h.hands hi).heralds g (by
          show g ∈ handsOf (framesOf i (x₀ :: rest))
          rw [hF, handsOf_cons, hg]
          exact List.mem_cons_self)
    refine ⟨G, es, hnew, fun g hg => ?_, hpast ▸ hann⟩
    have hg' : g ∈ framesOf i c'.todo := hG ▸ List.mem_append_left _ hg
    exact (List.mem_filter.1 hg').1

/-- An effect is withdrawn where it is overtaken, or where its task is cancelled or aborted. -/
theorem withdrawn_step (h : s.Visits c) (hc : c.step = some c') (ha : c'.world.Alive i)
    (hold : .withdrawn x ∉ c.world.past i) (hx : .withdrawn x ∈ c'.world.past i) :
    Overtaken (c'.world.past i) x ∨
      ∃ t q e, .triggered t x q e ∈ c'.world.past i ∧ c'.world.Struck ⟨i, t, ""⟩ := by
  obtain ⟨G, es, hnew, -, hann⟩ := h.announces hc ha rfl hold hx
  refine (hann.withdrawn hnew).imp_right fun ⟨t, q, e, ht, p, hp, hs⟩ => ?_
  have hkeeps := (h.step hc).keeps ⟨i, t, ""⟩ ha
  exact ⟨t, q, e, ht, hkeeps.present p hp, by rwa [hkeeps.statusOf ha hp]⟩

/-- A withdrawn effect was overtaken by another member, or its task was cancelled or aborted. -/
theorem overtaken_or_struck (h : s.Visits c) (ha : c.world.Alive i)
    (hx : .withdrawn x ∈ c.world.past i) : Overtaken (c.world.past i) x ∨
      ∃ t q e, .triggered t x q e ∈ c.world.past i ∧ c.world.Struck ⟨i, t, ""⟩ := by
  induction h with
  | start h =>
    rw [World.past, (setUp_fresh h).journal] at hx
    cases hx
  | call _ o budget ih => exact ih ha hx
  | @step c c' h hc ih =>
    have hi := (h.knows.has_iff hc i).1 ha.has
    have hsub : c.world.past i ⊆ c'.world.past i := by
      obtain ⟨es, hes⟩ := h.past_precedes hi (.step .refl hc)
      exact hes ▸ fun _ => List.mem_append_right _
    by_cases hold : .withdrawn x ∈ c.world.past i
    · rcases ih (h.alive_of_step hi hc ha) hold with ho | ⟨t, q, e, ht, hs⟩
      · exact Or.inl (ho.mono hsub)
      · exact Or.inr ⟨t, q, e, hsub ht, h.struck_step hi hc ha hs⟩
    · exact h.withdrawn_step hc ha hold hx

/-- A signal is handed on to a combinator that is being started. -/
theorem open_of_hands (h : s.Visits c) (ha : c.world.Alive i) {signal : Signal}
    (hh : (signal, some y) ∈ handsOf (framesOf i c.todo)) :
    ∃ t nests, Open (c.world.engine i).waits t nests ∧ y ∈ nests.map Nest.id := by
  obtain ⟨f, hf, hhands⟩ := List.mem_filterMap.1 hh
  have hstart := ((h.sound ha.has).tabled (Config.alive_iff.2 ha)).frames f hf
  cases f with
  | begun turn b nests start =>
    cases start with
    | immediate signal' =>
      have hparent : (Nest.link nests).parent? = some y := (Prod.mk.inj (Option.some.inj hhands)).2
      refine ⟨turn.task, nests, hstart, ?_⟩
      cases nests with
      | nil => cases hparent
      | cons n nests =>
        rw [Starting.link_parent?] at hparent
        exact Option.some.inj hparent ▸ List.mem_cons_self
    | _ => cases hhands
  | _ => cases hhands

/--
Whatever is around an effect that ended has ended as well, or it is a combinator that is being
started, and that END is just handed on to.
-/
theorem ended_around (h : s.Visits c) (ha : c.world.Alive i)
    (hx : .settled x .ended ∈ c.world.past i) (hy : Beneath (c.world.past i) y x) :
    .settled y .ended ∈ c.world.past i ∨
      handsOf (framesOf i c.todo) ≠ [] ∧ y ∉ endedIn (c.world.past i) := by
  have hv := h.hands ha.has
  have hk := h.kept ha.has
  have hA := hk.accounts (Config.alive_iff.2 ha)
  have hopen : ∀ {q}, (.ended, some q) ∈ handsOf (framesOf i c.todo) →
      y = q ∨ Beneath (c.world.past i) y q →
      handsOf (framesOf i c.todo) ≠ [] ∧ y ∉ endedIn (c.world.past i) := by
    intro q hq hy
    obtain ⟨t, nests, ho, hm⟩ := h.open_of_hands ha hq
    have hm : y ∈ nests.map Nest.id := by
      rcases hy with rfl | hy
      · exact hm
      · exact ho.around hA hk.regular hm hy
    obtain ⟨n, hn, rfl⟩ := List.mem_map.1 hm
    obtain ⟨w, hw, -⟩ := ho.exists_get? hn
    exact ⟨List.ne_nil_of_mem hq, (hA.entries hw).2⟩
  induction hy with
  | member ht => exact (hv.ended hx ⟨_, _, ht⟩).imp_right fun hq => hopen hq (Or.inl rfl)
  | deeper hq ht ih =>
    rcases hv.ended hx ⟨_, _, ht⟩ with hq' | hq'
    · exact ih hq'
    · exact Or.inr (hopen hq' (Or.inr hq))

end Scenario.Visits

end

end SagaMachine
