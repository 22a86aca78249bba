import SagaMachine.Proofs.Members

/-!
# A race has one winner

A race settles with what one of its members settled with: under the key of this member, or in its place,
if it is a value (`Won`). A settlement goes up through the combinators that it decides
(`Waits.Ascends`), and a race that a member has settled of is decided at once, so no other member
settles any more.

Main statement: `Scenario.Visits.crowned`.
-/

namespace SagaMachine

/-! ## Walks upwards -/

namespace Waits

/-- Nothing settles among some passages. -/
def Withdrawing (ps : List Passage) : Prop := ∀ x signal, .settled x signal ∉ ps

/--
A signal goes up from an effect through the combinators that it decides; `N` says of a pending effect
where it reports, and which race it is, if it is one.
-/
inductive Ascends (N : EffectId → Link → Option (Option (List String) × Nat) → Prop) :
    EffectId → Link → Signal → List Passage → Prop
  | top {id signal} : Ascends N id .task signal []
  | waits {id p slot signal link} (hp : N p link none) : Ascends N id (.all p slot) signal []
  | race {id p slot signal keys width link ws ps} (hp : N p link (some (keys, width)))
      (hw : Withdrawing ws) (hup : Ascends N p link (raceResult keys width slot signal) ps) :
      Ascends N id (.race p slot) signal
        (ws ++ .settled p (raceResult keys width slot signal) :: ps)
  | all {id p slot signal result link ws ps} (hp : N p link none) (hw : Withdrawing ws)
      (hup : Ascends N p link result ps) :
      Ascends N id (.all p slot) signal (ws ++ .settled p result :: ps)

/-- A pending effect reports to a link, and is a race of this form, or none. -/
def Registers (waits : Waits) (x : EffectId) (link : Link)
    (kind : Option (Option (List String) × Nat)) : Prop :=
  ∃ w, waits.get? x = some w ∧ w.link = link ∧ w.kind.race? = kind

section

variable {waits : Waits} {N : EffectId → Link → Option (Option (List String) × Nat) → Prop}
  {id x y p : EffectId} {link : Link} {signal r : Signal} {ps ws : List Passage}

theorem Withdrawing.nil : Withdrawing [] := fun _ _ => List.not_mem_nil

theorem withdrawing_detachEach (waits : Waits) (ids : List EffectId) :
    Withdrawing (waits.detachEach ids).1 := fun x signal hx => by
  obtain ⟨y, w, he, -⟩ := withdrawn_of_mem_detachEach hx
  cases he

theorem Withdrawing.mem_iff (h : Withdrawing ws) :
    .settled x r ∈ ws ++ .settled p signal :: ps ↔ x = p ∧ r = signal ∨ .settled x r ∈ ps := by
  rw [List.mem_append, or_iff_right (h x r), List.mem_cons]
  exact or_congr_left (by simp)

theorem race?_of_hasMember {kind : WaitKind} {slot : Nat} (h : kind.HasMember (.all p slot) id) :
    kind.race? = none := by
  cases kind with
  | all => rfl
  | _ => exact h.elim

/-- A climb goes up through the combinators that it decides. -/
theorem Climbable.ascends {task : TaskId} (h : Climbable waits task id link)
    (hN : ∀ {x w}, waits.get? x = some w → N x w.link w.kind.race?) :
    Ascends N id link signal (climb waits task id link signal).passages := by
  have hsub {waits waits' : Waits} {ps : List Passage} (hw : Spends waits ps waits')
      (hN : ∀ {x w}, waits.get? x = some w → N x w.link w.kind.race?) {x : EffectId} {w : Wait}
      (hx : waits'.get? x = some w) : N x w.link w.kind.race? := by
    obtain ⟨w₀, hw₀, -, hlink, -, hrace⟩ := hw.old hx
    exact hlink ▸ hrace ▸ hN hw₀
  fun_induction climb waits task id link signal with
  | case1 waits task id signal => exact .top
  | case2 waits task id signal p slot hp =>
    obtain ⟨pw, hpw, -⟩ := h.above rfl
    cases hp.symm.trans hpw
  | case3 waits task id signal p slot pw hp r ih =>
    obtain ⟨pw', hpw', ht, hm⟩ := h.above rfl
    obtain rfl : pw = pw' := Option.some.inj (hp.symm.trans hpw')
    obtain ⟨keys, members, hk⟩ : ∃ keys members, pw.kind = .race keys members := by
      cases hk : pw.kind with
      | race keys members => exact ⟨keys, members, rfl⟩
      | _ => exact (hk ▸ hm).elim
    have hr : r = (raceResult keys members.length slot signal,
        detachEach (waits.erase p) pw.kind.members) := by simp [r, closeRace, hk]
    have hc : Closes waits p pw r.2.2 := by
      rw [hr]
      exact closes_detachEach h.forest hp (Or.inr rfl)
    have hup := ih (hc.climbable h.forest (fun hx _ => h.whole hx) hp) fun hx => hN (hc.old hx).2
    have hp := hN hp
    rw [hk] at hp
    rw [hr] at hup ⊢
    have hrace : Ascends N id (.race p slot) signal _ :=
      .race hp (withdrawing_detachEach (waits.erase p) pw.kind.members) hup
    rwa [List.append_cons] at hrace
  | case4 waits task id signal p slot m hm =>
    obtain ⟨pw, hp, -, hmember⟩ := h.above rfl
    exact .waits (race?_of_hasMember hmember ▸ hN hp)
  | case5 waits task id signal p slot m hm hp =>
    obtain ⟨pw, hpw, -, hmg⟩ := h.merged signal
    obtain ⟨w, hw⟩ := hmg.exists_get? hpw
    cases hp.symm.trans hw
  | case6 waits task id signal p slot m hm w hw result ih =>
    obtain ⟨pw, hp, -, hmember⟩ := h.above rfl
    obtain ⟨pw', hp', -, hmg⟩ := h.merged signal
    obtain rfl : pw = pw' := Option.some.inj (hp.symm.trans hp')
    obtain ⟨-, hlink, hc⟩ := hmg.closes hp hw
    rw [hmg.members_of_complete hp hw hm] at hc
    have hup := ih (hc.climbable hmg.forest (fun hx hxp => h.whole (hmg.get?_eq hxp ▸ hx)) hw)
      (hsub ((spends_merge waits p slot signal).trans (Spends.erase hw (e := .settled p result) rfl))
        hN)
    have hp := hN hp
    rw [race?_of_hasMember hmember, ← hlink] at hp
    exact Ascends.all hp .nil hup
  | case7 waits task id signal p slot m result hm hp =>
    obtain ⟨pw, hpw, -, hmg⟩ := h.merged signal
    obtain ⟨w, hw⟩ := hmg.exists_get? hpw
    cases hp.symm.trans hw
  | case8 waits task id signal p slot m result hm w hw r ih =>
    obtain ⟨pw, hp, -, hmember⟩ := h.above rfl
    obtain ⟨pw', hp', -, hmg⟩ := h.merged signal
    obtain rfl : pw = pw' := Option.some.inj (hp.symm.trans hp')
    obtain ⟨-, hlink, hc⟩ := hmg.closes hp hw
    have hup := ih (hc.climbable hmg.forest (fun hx hxp => h.whole (hmg.get?_eq hxp ▸ hx)) hw)
      (hsub ((spends_merge waits p slot signal).trans (Spends.erase_last hw (e := .settled p result)
        rfl (spends_detachEach ..))) hN)
    have hp := hN hp
    rw [race?_of_hasMember hmember, ← hlink] at hp
    have hall : Ascends N id (.all p slot) signal _ :=
      .all hp (withdrawing_detachEach (m.2.erase p) w.kind.members) hup
    rwa [List.append_cons] at hall

end

namespace Ascends

section

variable {N : EffectId → Link → Option (Option (List String) × Nat) → Prop}
  {M : EffectId → EffectId → Prop} {id x y q : EffectId} {link : Link} {signal r r' : Signal}
  {ps : List Passage}
  (h : Ascends N id link signal ps)
  (hM : ∀ {x l kind}, N x l kind → ∀ p, M p x ↔ l.parent? = some p)
include h hM

/-- What settles on the way up is older than the effects below. -/
theorem bound (hlt : ∀ {p x}, M p x → p < x) (hx : .settled x r ∈ ps) :
    ∃ p, link.parent? = some p ∧ x ≤ p := by
  induction h with
  | top | waits => cases hx
  | race hp hw hup ih | all hp hw hup ih =>
    rcases hw.mem_iff.1 hx with ⟨rfl, -⟩ | hx
    · exact ⟨_, rfl, Nat.le_refl _⟩
    · obtain ⟨q, hq, hle⟩ := ih hx
      exact ⟨_, rfl, Nat.le_of_lt (Nat.lt_of_le_of_lt hle (hlt ((hM hp q).2 hq)))⟩

/-- On the way up no other member settles of the combinator that an effect is a member of. -/
theorem apart (hlt : ∀ {p x}, M p x → p < x) (hid : M q id ↔ link.parent? = some q)
    (hqid : M q id) (hqx : M q x) : .settled x r ∉ ps := fun hx => by
  obtain ⟨p, hp, hle⟩ := h.bound hM hlt hx
  cases (hid.1 hqid).symm.trans hp
  exact Nat.not_lt_of_le hle (hlt hqx)

/-- Of a combinator one member settles on the way up. -/
theorem single (hlt : ∀ {p x}, M p x → p < x) (hx : .settled x r ∈ ps) (hy : .settled y r' ∈ ps)
    (hqx : M q x) (hqy : M q y) : x = y := by
  induction h with
  | top | waits => cases hx
  | race hp hw hup ih | all hp hw hup ih =>
    rcases hw.mem_iff.1 hx with ⟨rfl, -⟩ | hxs <;> rcases hw.mem_iff.1 hy with ⟨rfl, -⟩ | hys
    · rfl
    · exact absurd hys (hup.apart hM hlt (hM hp q) hqx hqy)
    · exact absurd hxs (hup.apart hM hlt (hM hp q) hqy hqx)
    · exact ih hxs hys

/-- A race that a member settles of is decided. -/
theorem decided (hq : ∀ {l}, ¬ N q l none) :
    (link.parent? = some q → ∃ r, .settled q r ∈ ps) ∧
      ∀ {x r}, .settled x r ∈ ps → M q x → ∃ r, .settled q r ∈ ps := by
  induction h with
  | top => exact ⟨nofun, nofun⟩
  | waits hp =>
    refine ⟨fun he => ?_, nofun⟩
    cases he
    exact absurd hp hq
  | race hp hw hup ih | all hp hw hup ih =>
    refine ⟨fun he => ?_, fun {x r} hx hqx => ?_⟩
    · cases he
      exact ⟨_, hw.mem_iff.2 (Or.inl ⟨rfl, rfl⟩)⟩
    · rcases hw.mem_iff.1 hx with ⟨rfl, -⟩ | hx
      · obtain ⟨r, hr⟩ := ih.1 ((hM hp q).1 hqx)
        exact ⟨r, hw.mem_iff.2 (Or.inr hr)⟩
      · obtain ⟨r, hr⟩ := ih.2 hx hqx
        exact ⟨r, hw.mem_iff.2 (Or.inr hr)⟩

end

end Ascends

end Waits

/-! ## What events tell of races -/

/-- A race has the result that it owes to the signal of one of its members. -/
def Won (past : List Event) (p : EffectId) (keys : Option (List String)) (width : Nat)
    (signal : Signal) : Prop :=
  ∃ slot x s, ((membersIn past p).map Prod.fst)[slot]? = some x ∧ .settled x s ∈ past ∧
    signal = Waits.raceResult keys width slot s

theorem Won.onto {past : List Event} {p : EffectId} {keys : Option (List String)} {width : Nat}
    {signal : Signal} (h : Won past p keys width signal) (es : List Event) :
    Won (es.reverse ++ past) p keys width signal := by
  obtain ⟨slot, x, s, hx, hs, hsignal⟩ := h
  have hx : Placed past x (.race p slot) := hx
  exact ⟨slot, x, s, hx.onto es, List.mem_append_right _ hs, hsignal⟩

/-- On the way up races have the results that they owe to their members. -/
theorem Waits.Ascends.won {N : EffectId → Link → Option (Option (List String) × Nat) → Prop}
    {id x : EffectId} {link : Link} {signal r : Signal} {ps : List Passage} {past : List Event}
    {keys : Option (List String)} {width : Nat} (h : Ascends N id link signal ps)
    (hN : ∀ {x l kind}, N x l kind → Placed past x l) (hid : Placed past id link)
    (hs : .settled id signal ∈ past) (hps : ∀ {x r}, .settled x r ∈ ps → .settled x r ∈ past)
    (hx : ∀ {l kind}, N x l kind → kind = some (keys, width)) (hm : .settled x r ∈ ps) :
    Won past x keys width r := by
  induction h with
  | top | waits => cases hm
  | race hp hw hup ih =>
    rcases hw.mem_iff.1 hm with ⟨rfl, rfl⟩ | hm
    · cases hx hp
      exact ⟨_, _, _, hid, hs, rfl⟩
    · exact ih (hN hp) (hps (hw.mem_iff.2 (Or.inl ⟨rfl, rfl⟩)))
        (fun hr => hps (hw.mem_iff.2 (Or.inr hr))) hm
  | all hp hw hup ih =>
    rcases hw.mem_iff.1 hm with ⟨rfl, rfl⟩ | hm
    · cases hx hp
    · exact ih (hN hp) (hps (hw.mem_iff.2 (Or.inl ⟨rfl, rfl⟩)))
        (fun hr => hps (hw.mem_iff.2 (Or.inr hr))) hm

/-! ## What frames do for races -/

/-- A race is pending. -/
def Core.Races (k : Core) (p : EffectId) : Prop := ∃ w, k.waits.get? p = some w ∧ w.kind.race? ≠ none

/-- What the settlements of a frame mean for the races around what settles. -/
structure Crowns (past : List Event) (k : Core) (x : Instr) (G : List Instr) (es : List Event) :
    Prop where
  present : ∀ {y r p}, .settled y r ∈ es → MemberOf past p y → ∃ w, k.waits.get? p = some w
  decided : ∀ {y r p}, .settled y r ∈ es → MemberOf past p y → k.Races p →
    p ∈ endedIn es ∨ (r, some p) ∈ handsOf G
  single : ∀ {y z r r' p}, .settled y r ∈ es → .settled z r' ∈ es → MemberOf past p y →
    MemberOf past p z → y = z
  handed : ∀ {r p}, x.hands? = some (r, some p) → k.Races p →
    p ∈ endedIn es ∧ ∀ y r', .settled y r' ∈ es → y = p
  won : ∀ {t y q e r keys width}, .settled y r ∈ es → .triggered t y q e ∈ past →
    e.race? = some (keys, width) → Won past y keys width r

section

variable {i : MiddlewareId} {past past' es later : List Event} {x : Instr} {k k' : Core}
  {F G : List Instr} {D : List TaskId} {t u : TaskId} {b : Body} {nests : List Nest} {z p : EffectId}
  {e : Effect} {signal : Signal} {as : List Attempt}

theorem Nest.Fits.race?_eq {slot : Nat} {rest : List Effect} {kind : WaitKind}
    (h : (Nest.all p slot rest).Fits kind) : kind.race? = none := by
  cases kind with
  | all => rfl
  | _ => exact h.elim

theorem Core.Races.not_all {slot : Nat} {rest : List Effect} (h : k.Races p)
    (ho : Open k.waits t (.all p slot rest :: nests)) : False := by
  obtain ⟨w, hw, hrace⟩ := h
  obtain ⟨⟨w', hw', -, -, hfits⟩, -⟩ := ho
  cases hw.symm.trans hw'
  exact hrace hfits.race?_eq

theorem mem_endedIn_of_settled (h : .settled z signal ∈ es) : z ∈ endedIn es :=
  List.mem_filterMap.2 ⟨_, h, rfl⟩

namespace Crowns

/-- Nothing settles. -/
theorem silent (hes : ∀ y r, .settled y r ∉ es)
    (hx : ∀ r p, x.hands? = some (r, some p) → ¬ k.Races p) : Crowns past k x G es where
  present h := absurd h (hes _ _)
  decided h := absurd h (hes _ _)
  single h := absurd h (hes _ _)
  handed h hp := absurd hp (hx _ _ h)
  won h := absurd h (hes _ _)

/-- What settles last is handed on. -/
theorem hands (hr : Regular past) (hlater : ∀ y r, .settled y r ∉ later)
    (ht : .triggered u z (Nest.link nests).parent? e ∈ past) (ho : Open k.waits t nests)
    (hx : ∀ r p, x.hands? = some (r, some p) → k.Races p → p = z)
    (hwon : ∀ keys width, e.race? = some (keys, width) → Won past z keys width signal) :
    Crowns past k x [.begun ⟨i, t⟩ b nests (.immediate signal)] (later ++ [.settled z signal]) := by
  have hes {y : EffectId} {r : Signal} (hy : .settled y r ∈ later ++ [.settled z signal]) :
      y = z ∧ r = signal := by
    cases List.mem_singleton.1 ((List.mem_append.1 hy).resolve_left (hlater y r))
    exact ⟨rfl, rfl⟩
  have hparent {p : EffectId} (hp : MemberOf past p z) : (Nest.link nests).parent? = some p := by
    obtain ⟨u', e', hp⟩ := hp
    exact (hr.triggered_once ht hp).2.1
  refine ⟨fun hy hp => ?_, fun hy hp _ => ?_, fun hy hz _ _ => (hes hy).1.trans (hes hz).1.symm,
    fun hh hp => ?_, fun hy hu hrace => ?_⟩
  · obtain ⟨rfl, -⟩ := hes hy
    obtain ⟨w, hw, -⟩ := ho.parent (hparent hp)
    exact ⟨w, hw⟩
  · obtain ⟨rfl, rfl⟩ := hes hy
    exact Or.inr (by rw [← hparent hp]; exact List.mem_cons_self)
  · obtain rfl := hx _ _ hh hp
    exact ⟨mem_endedIn_of_settled (List.mem_append_right _ List.mem_cons_self),
      fun y r hy => (hes hy).1⟩
  · obtain ⟨rfl, rfl⟩ := hes hy
    obtain ⟨-, -, rfl⟩ := hr.triggered_once ht hu
    exact hwon _ _ hrace

/-- What is no race is handed on. -/
theorem passes (hr : Regular past) (hlater : ∀ y r, .settled y r ∉ later)
    (ht : .triggered u z (Nest.link nests).parent? e ∈ past) (ho : Open k.waits t nests)
    (hx : ∀ r p, x.hands? = some (r, some p) → k.Races p → p = z) (he : e.race? = none) :
    Crowns past k x [.begun ⟨i, t⟩ b nests (.immediate signal)] (later ++ [.settled z signal]) :=
  hands hr hlater ht ho hx fun keys width hrace => by
    rw [he] at hrace
    cases hrace

end Crowns

theorem settled_mem_events {ps : List Passage} :
    .settled z signal ∈ ps.map Passage.event ↔ .settled z signal ∈ ps := by
  rw [List.mem_map]
  constructor
  · rintro ⟨p, hp, he⟩
    cases p with
    | withdrawn => cases he
    | settled => cases he; exact hp
  · exact fun h => ⟨_, h, rfl⟩

/-- What settles on a climb decides the races that it is a member of. -/
theorem Crowns.climbs {link : Link} {ps : List Passage}
    (hup : Waits.Ascends k.waits.Registers z link signal ps)
    (hM : ∀ {y l kind}, k.waits.Registers y l kind → ∀ p, MemberOf past p y ↔ l.parent? = some p)
    (hz : ∀ p, MemberOf past p z ↔ link.parent? = some p) (hr : Regular past)
    (hpresent : ∀ {y r p}, .settled y r ∈ .settled z signal :: ps → MemberOf past p y →
      ∃ w, k.waits.get? p = some w)
    (hwon : ∀ {t y q e r keys width}, .settled y r ∈ .settled z signal :: ps →
      .triggered t y q e ∈ past → e.race? = some (keys, width) → Won past y keys width r)
    (hx : x.hands? = none) :
    Crowns past k x G ((.settled z signal :: ps).map Passage.event) := by
  have hlt {p y : EffectId} (hp : MemberOf past p y) : p < y := by
    obtain ⟨u, e, hp⟩ := hp
    exact (hr.of_member hp).2
  have hcases {y : EffectId} {r : Signal}
      (hy : .settled y r ∈ (.settled z signal :: ps).map Passage.event) :
      (y = z ∧ r = signal) ∨ .settled y r ∈ ps := by
    rcases List.mem_cons.1 (settled_mem_events.1 hy) with hy | hy
    · cases hy
      exact Or.inl ⟨rfl, rfl⟩
    · exact Or.inr hy
  refine ⟨fun hy => hpresent (settled_mem_events.1 hy), fun {y r p} hy hp hraces => Or.inl ?_,
    fun {y y' r r' p} hy hy' hp hp' => ?_, fun hh => ?_,
    fun hy => hwon (settled_mem_events.1 hy)⟩
  · have hq {l : Link} : ¬ k.waits.Registers p l none := by
      rintro ⟨w, hw, -, hrace⟩
      obtain ⟨w', hw', hne⟩ := hraces
      cases hw.symm.trans hw'
      exact hne hrace
    obtain ⟨hself, hother⟩ := hup.decided hM hq
    obtain ⟨r', hr'⟩ : ∃ r', .settled p r' ∈ ps := by
      rcases hcases hy with ⟨rfl, -⟩ | hy
      · exact hself ((hz p).1 hp)
      · exact hother hy hp
    exact mem_endedIn_of_settled (settled_mem_events.2 (List.mem_cons_of_mem _ hr'))
  · rcases hcases hy with ⟨rfl, -⟩ | hys <;> rcases hcases hy' with ⟨rfl, -⟩ | hys'
    · rfl
    · exact absurd hys' (hup.apart hM hlt (hz p) hp hp')
    · exact absurd hys (hup.apart hM hlt (hz p) hp' hp)
    · exact hup.single hM hlt hys hys' hp hp'
  · rw [hx] at hh
    cases hh

/-- A settlement that is performed decides the races on its way. -/
theorem Tabled.crowns (hT : Tabled k F past) (hl : looseOf F = []) (hnests : ∀ g ∈ F, g.nests = [])
    (hA : Accounts k.waits as past) (hn : LeafName past z) (hr : Regular past') (hsub : past ⊆ past')
    (hk : ∀ {y wait}, k.waits.get? y = some wait → Entered past' y wait)
    (hps : ∀ ev ∈ (Waits.settle k.waits z signal).passages.map Passage.event, ev ∈ past')
    (hx : x.hands? = none) :
    Crowns past' k x G ((Waits.settle k.waits z signal).passages.map Passage.event) := by
  have hwhole {y : EffectId} {w : Wait} (hy : k.waits.get? y = some w) : w.kind.Whole :=
    hT.whole hy fun g hg => by
      rw [hnests g hg]
      exact List.not_mem_nil
  have hF : k.waits.Forest [] .task := hl ▸ hT.forest
  cases hz : k.waits.get? z with
  | none =>
    rw [Waits.settle_of_absent hz]
    exact .silent (fun y r => List.not_mem_nil) (by simp [hx])
  | some wait =>
    have hspends := Waits.spends_settle k.waits z signal
    have hup : Waits.Ascends k.waits.Registers z wait.link signal
        (Waits.climb (k.waits.erase z) wait.task z wait.link signal).passages :=
      (Waits.climbable_erase hF hwhole hz (hT.leaf hz hn).members).ascends fun hy =>
        ⟨_, Waits.get?_of_get?_erase hy, rfl, rfl⟩
    rw [Waits.settle_eq hz] at hps hspends ⊢
    generalize Waits.climb (k.waits.erase z) wait.task z wait.link signal = c at *
    refine .climbs hup (fun {y l kind} hy p => ?_) (hA.memberOf hr hsub hz) hr
      (fun {y r p} hy hp => ?_) (fun {u y q e r keys width} hy hu hrace => ?_) hx
    · obtain ⟨w, hw, rfl, -⟩ := hy
      exact hA.memberOf hr hsub hw p
    · obtain ⟨⟨w, hw⟩, -⟩ := hspends.listed.1 (List.mem_map_of_mem hy)
      obtain ⟨pw, hpw, -⟩ := hF.up hw List.not_mem_nil ((hA.memberOf hr hsub hw p).1 hp)
      exact ⟨pw, hpw⟩
    · have hevent {y : EffectId} {r : Signal} (hy : .settled y r ∈ c.passages) :
          .settled y r ∈ past' :=
        hps _ (settled_mem_events.2 (List.mem_cons_of_mem _ hy))
      rcases List.mem_cons.1 hy with hy | hy
      · cases hy
        obtain ⟨t', q', e', ht', he'⟩ := hn
        obtain ⟨-, -, rfl⟩ := hr.triggered_once (hsub ht') hu
        rw [Effect.race?_eq_none he'] at hrace
        cases hrace
      · refine hup.won (fun hy => ?_) (hk hz).placed (hps _ List.mem_cons_self) hevent (fun hy => ?_)
          hy
        · obtain ⟨w, hw, rfl, -⟩ := hy
          exact (hk hw).placed
        · obtain ⟨w, hw, -, rfl⟩ := hy
          obtain ⟨t', q', e', ht', he'⟩ := (hk hw).race
          obtain ⟨-, -, rfl⟩ := hr.triggered_once ht' hu
          rw [he', hrace]

section

variable (hA : Accounts k.waits (attemptsOf (x :: F)) past) (hr : Regular past)
include hA hr

/-- An effect that is being carried out is no race. -/
theorem Accounts.attempt_plain {a : Attempt} (ha : x.attempt? = some a) (hl : LeafName past a.id) :
    ∃ e, .triggered a.task a.id a.parent e ∈ past ∧ e.race? = none := by
  obtain ⟨⟨e, he⟩, -⟩ := hA.attempts a (by rw [attemptsOf_cons, ha]; exact List.mem_cons_self)
  obtain ⟨t, q, e', he', hfan⟩ := hl
  obtain ⟨-, -, rfl⟩ := hr.triggered_once he he'
  exact ⟨e, he, Effect.race?_eq_none hfan⟩

variable (hk : ∀ {y wait}, k.waits.get? y = some wait → Entered past y wait)
include hk

/-- A combinator that is being started was triggered, as a race of the form that it has. -/
theorem Accounts.opened {m : Nest} (ho : Open k.waits u (m :: nests)) : ∃ w e,
    k.waits.get? m.id = some w ∧ m.Fits w.kind ∧
      .triggered u m.id (Nest.link nests).parent? e ∈ past ∧ e.race? = w.kind.race? := by
  obtain ⟨⟨w, hw, rfl, hlink, hfits⟩, -, -⟩ := ho
  obtain ⟨⟨e, he⟩, -⟩ := hA.entries hw
  obtain ⟨t', q', e', ht', hrace⟩ := (hk hw).race
  obtain ⟨-, -, rfl⟩ := hr.triggered_once he ht'
  exact ⟨w, e, hw, hfits, hlink ▸ he, hrace.symm⟩

/-- An `all` that is being started is no race. -/
theorem Accounts.all_plain {id : EffectId} {slot : Nat} {left : List Effect}
    (ho : Open k.waits u (.all id slot left :: nests)) :
    ∃ e, .triggered u id (Nest.link nests).parent? e ∈ past ∧ e.race? = none := by
  obtain ⟨w, e, -, hfits, he, hrace⟩ := hA.opened hr hk ho
  exact ⟨e, he, hrace.trans hfits.race?_eq⟩

/-- A race that is being started is decided by the member that was started last. -/
theorem Accounts.crowns_race {id : EffectId} {slot : Nat} {left : List Effect} {w : Wait}
    (hx : x = .begun ⟨i, t⟩ b (.race id slot left :: nests) (.immediate signal))
    (ho : Open k.waits t (.race id slot left :: nests)) (hw : k.waits.get? id = some w)
    (hm : x.Musters past) (hr' : Regular past') (hsub : past ⊆ past') (hold : ∀ {y link},
      Placed past y link → Placed past' y link) :
    Crowns past' k x [.begun ⟨i, t⟩ b nests
        (.immediate (Waits.closeRace (k.waits.erase id) w.kind slot signal).1)]
      ((Waits.closeRace (k.waits.erase id) w.kind slot signal).2.1.map Passage.event ++
        [.settled id (Waits.closeRace (k.waits.erase id) w.kind slot signal).1]) := by
  subst hx
  obtain ⟨w', e, hw', hfits, he, hrace⟩ := hA.opened hr hk ho
  obtain rfl : w = w' := Option.some.inj (hw.symm.trans hw')
  obtain ⟨keys, members, hkind⟩ : ∃ keys members, w.kind = .race keys members := by
    cases hkind : w.kind with
    | race keys members => exact ⟨keys, members, rfl⟩
    | _ => exact (hkind ▸ hfits).elim
  obtain ⟨z, hz, hranked⟩ := hm
  have hclose : Waits.closeRace (k.waits.erase id) w.kind slot signal =
      (Waits.raceResult keys members.length slot signal,
        Waits.detachEach (k.waits.erase id) w.kind.members) := by simp [Waits.closeRace, hkind]
  rw [hclose]
  refine .hands hr' (fun y r => Waits.not_settled_detachEach) (hsub he) ho.2.2
    (fun r p hh _ => ?_) fun keys' width hk' => ?_
  · cases hh
    rfl
  · rw [hrace, hkind] at hk'
    cases hk'
    exact ⟨slot, z, signal, hold hranked.placed, hsub hz, rfl⟩

end

/-- Whatever settles in a frame, the races around it are decided, or are told so. -/
theorem Does.crowns (h : Does i past x k k' G D es) (hs : Stack i k.current (x :: F))
    (hT : Tabled k (x :: F) past) (hA : Accounts k.waits (attemptsOf (x :: F)) past)
    (hr₀ : Regular past) (hr : Regular (es.reverse ++ past)) (hx : x.Musters past)
    (hk : ∀ {y wait}, k.waits.get? y = some wait → Entered past y wait) :
    Crowns (es.reverse ++ past) k x G es := by
  have hsub : past ⊆ es.reverse ++ past := fun _ => List.mem_append_right _
  have hnew : ∀ ev ∈ es, ev ∈ es.reverse ++ past := fun _ hm =>
    List.mem_append_left _ (List.mem_reverse.2 hm)
  have hstart := hT.frames x List.mem_cons_self
  have hmute {es : List Event} {G : List Instr} (hx : x.hands? = none) (he : endedIn es = []) :
      Crowns (es.reverse ++ past) k x G es :=
    .silent (fun y r hy => by
      have hy := mem_endedIn_of_settled hy
      rw [he] at hy
      cases hy) (by simp [hx])
  have htop {u : TaskId} {b : Body} {start : Start} {G : List Instr}
      (hx : x = .begun ⟨i, u⟩ b [] start) : Crowns ([].reverse ++ past) k x G [] :=
    .silent (fun y r => List.not_mem_nil) fun r p hh => by
      subst hx
      cases start <;> cases hh
  have hwithdraws {ids : List EffectId} {G : List Instr} (hx : ∀ r p, x.hands? ≠ some (r, some p)) :
      Crowns ((k.withdrawn ids).reverse ++ past) k x G (k.withdrawn ids) :=
    .silent (fun y r => Waits.not_settled_detach) fun r p hh => absurd hh (hx r p)
  cases h with
  | rest | next | schedule | polledHalted | polledComplete | polledYielded | triggerHalted
  | triggerCalls | triggerCancels | triggerOpens
  | leaveSuspended | leaveYielded | leaveFinished | leaveEnded | leaveFailed | leaveHalted
  | returnedLate | returned | returnedHeld | abortLate | abortHalts | cascadeAbort | cascadeLate
  | cancelLate | cancel | cancelledLate | cancelHalts | cancelledAll | answerSuspends | cancelHalted
  | raceNext | raceFull | start | resume | poll | advance => exact hmute rfl rfl
  | begunHalt | begunSuspends | begunHalted | begunEnds | begunPolls | begunYields => exact htop rfl
  | errand _ _ hq | emit hq | forwarded _ _ hq | forwardedCall _ hq => exact hmute rfl hq.endedIn
  | triggerSuspends _ _ _ _ hq => exact hmute rfl hq.endedIn
  | abortDone h | conclude h | cascadeComplete _ _ _ h | cancelOne h => exact hmute rfl h.waits.2.2
  | begunWithdraws | raceHalt | allHalt | abort | cancelEach => exact hwithdraws nofun
  | settle hn | wake hn =>
    obtain ⟨-, rfl⟩ := hs.of_works trivial
    exact hT.crowns rfl (by simp [Instr.nests]) hA hn hr hsub (fun hy => (hk hy).onto _) hnew rfl
  | triggerSettles _ he hq =>
    refine .passes hr (fun y r hm => ?_) (hnew _ List.mem_cons_self) hstart (by simp [Instr.hands?])
      (Effect.race?_eq_none he)
    rcases List.mem_cons.1 hm with hm | hm
    · cases hm
    · exact (hq _ hm).elim
  | triggerForks _ he =>
    show Crowns _ _ _ _ ([_, _] ++ [_])
    exact .passes hr (by simp) (hnew _ List.mem_cons_self) hstart (by simp [Instr.hands?])
      (Effect.race?_eq_none he)
  | answerSettles | cancelSettles =>
    obtain ⟨e, he, hplain⟩ := hA.attempt_plain hr₀ rfl hx.1
    show Crowns _ _ _ _ ([] ++ [_])
    exact .passes hr (by simp) (hsub he) hstart.1 (by simp [Instr.hands?]) hplain
  | raceDecided hw => exact hA.crowns_race hr₀ hk rfl hstart hw hx hr hsub fun hp => hp.onto _
  | allNext hk | allFull hk =>
    exact .silent (fun y r => List.not_mem_nil) fun r p hh hp => by
      rcases hk with ⟨member, rfl, -⟩ | ⟨v, rfl, -⟩
      · cases hh
      · cases hh
        exact hp.not_all hstart
  | @allComplete k t b id slot nests start k₁ w results members hstarts h hw =>
    have hopen : Open k.waits t (.all id slot [] :: nests) := by
      rcases hstarts with ⟨member, rfl, -⟩ | ⟨v, rfl, -⟩
      · exact hstart.1
      · exact hstart
    obtain ⟨e, he, hplain⟩ := hA.all_plain hr₀ hk hopen
    show Crowns _ _ _ _ ([] ++ [_])
    refine .passes hr (by simp) (hsub he) hopen.2.2 (fun r p hh hp => ?_) hplain
    rcases hstarts with ⟨member, rfl, -⟩ | ⟨v, rfl, -⟩
    · cases hh
    · cases hh
      rfl
  | allFailed =>
    obtain ⟨e, he, hplain⟩ := hA.all_plain hr₀ hk hstart
    refine .passes hr (fun y r => Waits.not_settled_detachEach) (hsub he) hstart.2.2
      (fun r p hh hp => ?_) hplain
    cases hh
    rfl
  -- a combinator that is being started is pending
  | raceLost h | allLost _ h =>
    obtain ⟨w, hw, -⟩ := hstart.exists_get? List.mem_cons_self
    cases h.symm.trans hw

/-- No race becomes pending but one that has just been triggered. -/
theorem Does.races (h : Does i past x k k' G D es) (hs : x.Starts k) (hp : k'.Races p) :
    k.Races p ∨ p = k.nextEffect := by
  obtain ⟨w, hw, hrace⟩ := hp
  cases h.deals hs with
  | walks _ _ hspends =>
    obtain ⟨w₀, hw₀, -, -, -, hr⟩ := hspends.old hw
    exact Or.inl ⟨w₀, hw₀, hr ▸ hrace⟩
  | issues _ hid _ _ _ _ hd =>
    rcases hd.of_get? hw with hw | ⟨hp, -⟩
    · exact Or.inl ⟨w, hw, hrace⟩
    · exact Or.inr (hp.trans hid)
  | concludes _ _ _ hd =>
    rcases hd.of_get? hw with hw | ⟨-, ⟨d, hkind⟩, -⟩
    · exact Or.inl ⟨w, hw, hrace⟩
    · rw [hkind] at hrace
      exact absurd rfl hrace
  | halts _ _ hk' =>
    subst hk'
    exact Or.inl ⟨w, hw, hrace⟩

/-- An effect that is triggered in a step has no members yet. -/
theorem Does.not_memberOf (h : Does i past x k k' G D es) (hT : Tabled k (x :: F) past)
    (hr₀ : Regular past) (hr : Regular (es.reverse ++ past)) :
    ¬ MemberOf (es.reverse ++ past) k.nextEffect z := by
  rintro ⟨u, e, hm⟩
  have hlt := (hr.of_member hm).2
  rcases List.mem_append.1 hm with hm | hm
  · have hm := List.mem_reverse.1 hm
    obtain ⟨b, nests, rfl, -⟩ := h.trigger_of_triggered hm
    rcases h.issues with rfl | ⟨later, rfl, hlater⟩
    · cases hm
    · rcases List.mem_cons.1 hm with hm | hm
      · rw [(Event.triggered.inj hm).2.1] at hlt
        exact Nat.lt_irrefl _ hlt
      · exact not_triggered_of_nil hlater hm
  · exact hT.unused (hr₀.of_member hm).1

end

/-! ## The invariant -/

/-- Races have one winner, and its result. -/
structure View.Crowned (v : View) : Prop where
  undecided : ∀ {p x r}, v.core.Races p → MemberOf v.past p x → .settled x r ∈ v.past →
    (r, some p) ∈ handsOf v.frames
  single : ∀ {t p q e x y r r'}, .triggered t p q e ∈ v.past → e.race? ≠ none →
    MemberOf v.past p x → MemberOf v.past p y → .settled x r ∈ v.past → .settled y r' ∈ v.past → x = y
  won : ∀ {t p q e r keys width}, .triggered t p q e ∈ v.past → .settled p r ∈ v.past →
    e.race? = some (keys, width) → Won v.past p keys width r

section

variable {i : MiddlewareId} {v v' : View}

theorem View.Crowned.start : View.Crowned ⟨true, Engine.core {}, [], [], []⟩ where
  undecided h := by
    obtain ⟨w, hw, -⟩ := h
    cases hw
  single h := absurd h List.not_mem_nil
  won h := absurd h List.not_mem_nil

/-- What triggers and settles no effect is nothing to races. -/
theorem View.Crowned.onto (hv : v.Crowned) (es : List Event) (hp : v'.past = es.reverse ++ v.past)
    (ht : triggeredIn es = []) (he : endedIn es = [])
    (hraces : ∀ {p}, v'.core.Races p → v.core.Races p)
    (hF : handsOf v.frames ⊆ handsOf v'.frames) : v'.Crowned := by
  have hissue {t : TaskId} {p : EffectId} {q : Option EffectId} {e : Effect}
      (hm : .triggered t p q e ∈ v'.past) : .triggered t p q e ∈ v.past := by
    rw [hp] at hm
    exact (List.mem_append.1 hm).resolve_left fun hm => not_triggered_of_nil ht (List.mem_reverse.1 hm)
  have hsettled {x : EffectId} {r : Signal} (hm : .settled x r ∈ v'.past) : .settled x r ∈ v.past := by
    rw [hp] at hm
    refine (List.mem_append.1 hm).resolve_left fun hm => ?_
    have hx := mem_endedIn_of_settled (List.mem_reverse.1 hm)
    rw [he] at hx
    cases hx
  have hmember {p x : EffectId} (hm : MemberOf v'.past p x) : MemberOf v.past p x := by
    obtain ⟨t, e, hm⟩ := hm
    exact ⟨t, e, hissue hm⟩
  refine ⟨fun hr hm hs => hF (hv.undecided (hraces hr) (hmember hm) (hsettled hs)),
    fun ht hr hx hy hs hs' => hv.single (hissue ht) hr (hmember hx) (hmember hy) (hsettled hs)
      (hsettled hs'), fun ht hs hr => ?_⟩
  rw [hp]
  exact (hv.won (hissue ht) (hsettled hs) hr).onto es

theorem View.Crowned.move (hv : v.Crowned) (hk : Kept i v) (hmu : v.Mustered) (hm : Moves i v v') :
    v'.Crowned := by
  have hk' := hk.move hm
  cases hm with
  | @does alive k F D past x k' G D' es hd hu =>
    cases alive with
    | false => cases (hk.sound.framed.dead rfl).1
    | true =>
      have hx := hmu.frames x List.mem_cons_self
      have hT := hk.sound.tabled rfl
      have hs := hT.frames x List.mem_cons_self
      have hsub : past ⊆ es.reverse ++ past := fun _ => List.mem_append_right _
      have hcrowns := hd.crowns hk.sound.framed.stack hT (hk.accounts rfl) hk.regular hk'.regular hx
        hmu.entries
      have hF : handsOf F = [] := handsOf_of_calm hu
      have hcons : handsOf (x :: F) = x.hands?.toList := by rw [handsOf_cons, hF, List.append_nil]
      have happ : handsOf (G ++ F) = handsOf G := by rw [handsOf_append, hF, List.append_nil]
      have hsplit {y : EffectId} {r : Signal} (hy : .settled y r ∈ es.reverse ++ past) :
          .settled y r ∈ es ∨ .settled y r ∈ past :=
        (List.mem_append.1 hy).imp_left List.mem_reverse.1
      have hmember {p y : EffectId} {r : Signal} (hy : .settled y r ∈ past)
          (hp : MemberOf (es.reverse ++ past) p y) : MemberOf past p y :=
        hk.regular.memberOf_of_ended hk'.regular hsub (mem_endedIn_of_settled hy) hp
      have hopen {p y : EffectId} {r : Signal} (hraces : k.Races p) (hp : MemberOf past p y)
          (hy : .settled y r ∈ past) : x.hands? = some (r, some p) := by
        have hh : (r, some p) ∈ handsOf (x :: F) := hv.undecided hraces hp hy
        rwa [hcons, Option.mem_toList] at hh
      refine ⟨fun {p y r} hraces hp hy => ?_, fun {t p q e y z r r'} ht he hp hp' hy hz => ?_,
        fun {t p q e r keys width} ht hy he => ?_⟩
      · show (r, some p) ∈ handsOf (G ++ F)
        rw [happ]
        have hnot : p ∉ endedIn es := fun hm => by
          obtain ⟨w, hw, -⟩ := hraces
          exact ((hk'.accounts rfl).entries hw).2 ((mem_endedIn_onto _ _).2 (Or.inl hm))
        have hraces := (hd.races hs hraces).resolve_right fun hpn =>
          hd.not_memberOf hT hk.regular hk'.regular (hpn ▸ hp)
        rcases hsplit hy with hy | hy
        · exact (hcrowns.decided hy hp hraces).resolve_left hnot
        · exact absurd (hcrowns.handed (hopen hraces (hmember hy hp) hy) hraces).1 hnot
      · have hfirst {y z : EffectId} {r r' : Signal} (hy : .settled y r ∈ past)
            (hz : .settled z r' ∈ es) (hp : MemberOf (es.reverse ++ past) p y)
            (hp' : MemberOf (es.reverse ++ past) p z) : False := by
          obtain ⟨w, hw⟩ := hcrowns.present hz hp'
          obtain ⟨t', q', e', ht', hrace⟩ := (hmu.entries hw).race
          obtain ⟨-, -, rfl⟩ := hk'.regular.triggered_once (hsub ht') ht
          have hraces : k.Races p := ⟨w, hw, hrace ▸ he⟩
          obtain rfl := (hcrowns.handed (hopen hraces (hmember hy hp) hy) hraces).2 z r' hz
          obtain ⟨u, e', hm⟩ := hp'
          exact Nat.lt_irrefl _ (hk'.regular.of_member hm).2
        rcases hsplit hy with hyn | hyo <;> rcases hsplit hz with hzn | hzo
        · exact hcrowns.single hyn hzn hp hp'
        · exact (hfirst hzo hyn hp' hp).elim
        · exact (hfirst hyo hzn hp hp').elim
        · obtain ⟨u, e', hm⟩ := hmember hyo hp
          obtain ⟨t', q', e'', ht'⟩ := mem_triggeredIn.1 (hk.regular.of_member hm).1
          obtain ⟨-, -, rfl⟩ := hk'.regular.triggered_once (hsub ht') ht
          exact hv.single ht' he ⟨u, e', hm⟩ (hmember hzo hp') hyo hzo
      · rcases hsplit hy with hy | hy
        · exact hcrowns.won hy ht he
        · obtain ⟨t', q', e', ht'⟩ := mem_triggeredIn.1
            (hk.regular.triggered_of_ended (mem_endedIn_of_settled hy))
          obtain ⟨-, -, rfl⟩ := hk'.regular.triggered_once (hsub ht') ht
          exact (hv.won ht' hy he).onto es
  | @intervenes k F D past k' G es hi hu =>
    obtain ⟨-, hwaits, ht, he⟩ := hi.idle
    refine hv.onto es rfl ht he (fun ⟨w, hw, hr⟩ => ⟨w, hwaits ▸ hw, hr⟩) ?_
    show handsOf F ⊆ handsOf (G ++ F)
    rw [handsOf_append]
    exact fun _ => List.mem_append_right _
  | still => exact hv
  | @drops alive k F t D past hu =>
    exact hv.onto [.bodyDropped t] rfl rfl rfl id fun _ => id
  | @dies k past D hD =>
    exact hv.onto [] rfl rfl rfl (fun ⟨w, hw, _⟩ => by cases hw) fun _ => id

end

namespace Scenario.Visits

variable {s : Scenario} {c : Config} {i : MiddlewareId}

theorem crowned (h : s.Visits c) (hi : c.world.Has i) : (c.view i).Crowned :=
  (h.invariant (P := fun v => Kept i v ∧ v.Mustered ∧ v.Crowned)
    ⟨⟨.start i, .nil, fun _ => .start⟩, .start, .start⟩
    (fun hv hm => ⟨hv.1.move hm, hv.2.1.move hv.1 hm, hv.2.2.move hv.1 hv.2.1 hm⟩) hi).2.2

end Scenario.Visits

end SagaMachine
