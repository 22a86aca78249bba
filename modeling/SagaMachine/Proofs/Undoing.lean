import SagaMachine.Proofs.Accounting
import SagaMachine.Proofs.Sprouts

/-!
# Starts are undone

When an effect tree that was left pending is withdrawn, the new effects go with their
registrations, and what is registered is what was registered before. When a combinator comes to
its end while its members are being started, nothing is left of those that were started before.

Main statement: `Scenario.Visits.undoes_starts`.
-/

namespace SagaMachine

theorem Table.get?_filter {κ α : Type} [DecidableEq κ] {t : Table κ α} {q : κ → Bool} {k : κ}
    (hk : q k = true) : (Table.mk (t.entries.filter fun e => q e.1)).get? k = t.get? k := by
  obtain ⟨entries⟩ := t
  simp only [get?, List.find?_filter]
  congr 2
  funext e
  by_cases he : e.1 = k <;> simp [he, hk]

section

variable {s : Scenario} {w w₀ w' : World} {i : MiddlewareId} {n x y : EffectId} {cost : Nat}
  {turn : Turn} {b : Body} {nests : List Nest} {rest : List Instr} {e : Effect}

/-! ## Withdrawing a tree -/

/-- The older effects are pending as they were. -/
theorem World.Sprouts.older (h : w₀.Sprouts i n w) (hx : x < n) :
    (w.engine i).waits.get? x = (w₀.engine i).waits.get? x := by
  have hold : olderThan i n ⟨i, x⟩ = true := by simpa [olderThan] using hx
  have hwaits : Table.mk ((w.engine i).waits.entries.filter fun e => olderThan i n ⟨i, e.1⟩) =
      Table.mk ((w₀.engine i).waits.entries.filter fun e => olderThan i n ⟨i, e.1⟩) :=
    congrFun (congrArg Registry.waits h.registry) i
  have hget := congrArg (fun t : Waits => t.get? x) hwaits
  rwa [Table.get?_filter (q := fun y => olderThan i n ⟨i, y⟩) hold,
    Table.get?_filter (q := fun y => olderThan i n ⟨i, y⟩) hold] at hget

theorem World.Has.waits_cancelWait (hi : w.Has i) (x : EffectId) :
    ((w.cancelWait i x).engine i).waits = ((w.engine i).waits.detach [x]).2 :=
  ((World.Advances.start hi).cancelWait x).waits

theorem World.Alive.cancelWait (ha : w.Alive i) (x : EffectId) : (w.cancelWait i x).Alive i :=
  ((World.Advances.start ha.has).cancelWait x).alive.trans ha

/-- The wait table while a task is starting an effect. -/
theorem Grounds.starting {x : Instr} {todo : List Instr} {t : TaskId} (h : Grounds i x todo w)
    (hx : x.turn? = some t) : Starting (w.engine i).waits t x.nests x.begun? := by
  obtain ⟨hcur, hrest⟩ := h.stack.of_turn hx
  have hT := h.tabled
  rw [hrest] at hT
  exact hT.starting hx (h.afoot hcur)

/-- Where a new tree is withdrawn, nothing new stays pending. -/
theorem Scenario.Visits.cancelled_new (h : s.Visits ⟨.trigger turn b nests e :: rest, w⟩)
    (hn : (w.engine turn.mw).nextEffect = n)
    (h' : s.Visits ⟨.begun turn b nests (.pending n) :: rest, w'⟩)
    (hs : w.Sprouts turn.mw n w') (hy : n ≤ y) :
    (w'.cancelWait turn.mw n).wait? ⟨turn.mw, y⟩ = none := by
  have hT := (h.grounds rfl (h.alive_of_owner rfl).has).tabled
  have hg := h'.grounds rfl (h'.alive_of_owner rfl).has
  have hS := hg.starting rfl
  have hinside : Inside nests n := (hS.latest rfl).1
  have hforest : Waits.Forest (w'.engine turn.mw).waits ([n] ++ nests.map Nest.id) .task :=
    hS.forest
  have hF : Waits.Forest ((w'.engine turn.mw).waits.detach [n]).2 (nests.map Nest.id) .task :=
    hforest.detach
  rw [World.wait?, hg.has.waits_cancelWait]
  induction y using Nat.strongRecOn with
  | _ y ih =>
    by_contra hne
    obtain ⟨wait, hw⟩ := Option.ne_none_iff_exists'.1 hne
    have hw' := Waits.get?_of_get?_detach hw
    have hloose : y ∉ nests.map Nest.id := by
      rw [List.mem_map]
      rintro ⟨m, hm, rfl⟩
      exact absurd (hinside m hm) (Nat.not_lt.2 hy)
    cases hp : wait.link.parent? with
    | none =>
      -- a task that is parked on it was so before, when there was no such effect
      have hlink : wait.link = .task := by
        cases hl : wait.link with
        | task => rfl
        | _ => simp [hl, Link.parent?] at hp
      have hyn : y ≠ n := by
        rintro rfl
        rw [Waits.get?_detach_of_mem List.mem_cons_self] at hw
        cases hw
      have hframes : framesOf turn.mw rest = [.drain turn.mw] := (hg.stack.of_turn rfl).2
      obtain ⟨p, hp, -, hpending⟩ := hg.tabled.rooted hw' hlink (by
        rw [hframes, looseOf_turn]
        simpa [Instr.loose, Instr.begun?, Instr.nests, hyn] using hloose)
      have hposture : (w'.core turn.mw).posture = (w.core turn.mw).posture :=
        congrArg Situation.postures hs.situation
      rw [hposture] at hp
      exact absurd (hn ▸ hT.parked hp hpending) (Nat.not_lt.2 hy)
    | some p =>
      obtain ⟨pw, hpw, -, hlt, hmember⟩ := hF.up hw hloose hp
      by_cases hpn : n ≤ p
      · exact absurd hpw (by simp [ih p hlt hpn])
      · -- the combinator is older, and so are its members
        have hpw := Waits.get?_of_get?_detach hpw
        rw [hs.older (Nat.not_le.1 hpn)] at hpw
        have hlink : wait.link ≠ .task := by
          intro hl
          simp [hl, Link.parent?] at hp
        obtain ⟨-, -, wy, hwy, -⟩ := hT.forest.down hpw hp hlink hmember
        exact absurd (hn ▸ hT.number hwy) (Nat.not_lt.2 hy)

/-- A tree that was left pending is withdrawn, and everything is registered as before. -/
theorem Scenario.Visits.registry_cancelWait (h : s.Visits ⟨.trigger turn b nests e :: rest, w⟩)
    (hn : (w.engine turn.mw).nextEffect = n)
    (h' : s.Visits ⟨.begun turn b nests (.pending n) :: rest, w'⟩)
    (hs : w.Sprouts turn.mw n w') : (w'.cancelWait turn.mw n).registry = w.registry := by
  have ha : w.Alive turn.mw := h.alive_of_owner rfl
  have ha' : w'.Alive turn.mw := h'.alive_of_owner rfl
  have hT := (h.grounds rfl ha.has).tabled
  have hS := (h'.grounds rfl ha'.has).starting rfl
  have hforest : Waits.Forest (w'.engine turn.mw).waits ([n] ++ nests.map Nest.id) .task :=
    hS.forest
  have hnew : ∀ r, olderThan turn.mw n r = false → r.mw = turn.mw ∧ n ≤ r.effect := by
    intro r hr
    simpa [olderThan] using hr
  have hbefore : w.registry.keep (olderThan turn.mw n) = w.registry :=
    h.wired.keep_registry fun r hr => by
      obtain ⟨hmw, hx⟩ := hnew r hr
      rw [World.wait?, hmw]
      refine ⟨ha, ?_⟩
      cases hw : (w.engine turn.mw).waits.get? r.effect with
      | none => rfl
      | some wait =>
        have hlt : r.effect < (w.engine turn.mw).nextEffect := hT.number hw
        exact absurd (hn ▸ hx) (Nat.not_le.2 hlt)
  have hafter : (w'.cancelWait turn.mw n).registry.keep (olderThan turn.mw n) =
      (w'.cancelWait turn.mw n).registry :=
    (h'.wired.cancelWait ha'.has n).keep_registry fun r hr => by
      obtain ⟨hmw, hx⟩ := hnew r hr
      have hnone := h.cancelled_new hn h' hs hx
      rw [World.wait?, hmw]
      exact ⟨ha'.cancelWait n, hnone⟩
  have hcancel : (w'.cancelWait turn.mw n).registry.keep (olderThan turn.mw n) =
      w'.registry.keep (olderThan turn.mw n) := by
    refine h'.wired.keep_cancelWait ha' (fun y wait hm => ?_) fun y wait d hy hw hk => ?_
    · exact olderThan_eq_false.2 (hforest.forall_withdrawn (Q := fun y _ => n ≤ y)
        (fun x hx _ _ => Nat.le_of_eq (List.mem_singleton.1 hx).symm)
        (fun _ _ _ _ hp hlt _ _ _ => Nat.le_trans hp (Nat.le_of_lt hlt)) y wait hm)
    · intro deferred r hd hl
      have hnone := hs.calls (olderThan_eq_false.1 hy) hw hk
      rw [← hs.registry] at hnone
      simpa [Registry.keep, World.registry, hd, hl] using hnone
  rw [← hafter, hcancel, hs.registry, hbefore]

/-! ## An end while members are being started -/

/-- An effect was triggered inside of another one, at any depth. -/
inductive Beneath (past : List Event) (p : EffectId) : EffectId → Prop
  | member {t : TaskId} {y : EffectId} {e : Effect} (h : .triggered t y (some p) e ∈ past) :
      Beneath past p y
  | deeper {t : TaskId} {q y : EffectId} {e : Effect} (hq : Beneath past p q)
      (h : .triggered t y (some q) e ∈ past) : Beneath past p y

/-- What an open combinator reports to is pending. -/
theorem Open.reports {waits : Waits} {t : TaskId} {m : Nest} {q : EffectId} {wait : Wait}
    (h : Open waits t nests) (hm : m ∈ nests) (hw : waits.get? m.id = some wait)
    (hq : wait.link.parent? = some q) : waits.get? q ≠ none := by
  induction nests with
  | nil => cases hm
  | cons m' nests ih =>
    obtain ⟨⟨wait', hw', -, hlink, -⟩, -, hopen⟩ := h
    rcases List.mem_cons.1 hm with rfl | hm
    · cases hw.symm.trans hw'
      rw [hlink] at hq
      cases nests with
      | nil => cases hq
      | cons n nests =>
        rw [Starting.link_parent?] at hq
        cases hq
        obtain ⟨pw, hpw, -⟩ := hopen.exists_get? List.mem_cons_self
        rw [hpw]
        exact Option.some_ne_none _
    · exact ih hopen hm

/-- When no member was just left pending, a member is only pending where its combinator is. -/
theorem Scenario.Visits.combinator_pending {start : Start} {t : TaskId} {q : EffectId}
    (h : s.Visits ⟨.begun turn b nests start :: rest, w⟩) (hstart : ∀ x, start ≠ .pending x)
    (ht : .triggered t y (some q) e ∈ w.past turn.mw) (hy : w.wait? ⟨turn.mw, y⟩ ≠ none) :
    w.wait? ⟨turn.mw, q⟩ ≠ none := by
  have ha : w.Alive turn.mw := h.alive_of_owner rfl
  have hk := h.kept ha.has
  obtain ⟨wait, hw⟩ := Option.ne_none_iff_exists'.1 hy
  have hS := (h.grounds rfl ha.has).starting rfl
  obtain ⟨⟨e', he'⟩, -⟩ := (hk.accounts (Config.alive_iff.2 ha)).entries hw
  obtain ⟨-, hlink, -⟩ := hk.regular.triggered_once he' ht
  by_cases hn : y ∈ nests.map Nest.id
  · obtain ⟨m, hm, rfl⟩ := List.mem_map.1 hn
    exact hS.isOpen.reports hm hw hlink
  · have hloose : y ∉ (Instr.begun turn b nests start).begun?.toList ++ nests.map Nest.id := by
      cases start with
      | pending x => exact absurd rfl (hstart x)
      | _ => simpa [Instr.begun?] using hn
    obtain ⟨pw, hpw, -⟩ := hS.forest.up hw hloose hlink
    rw [show w.wait? ⟨turn.mw, q⟩ = some pw from hpw]
    exact Option.some_ne_none _

/-- When no member was just left pending, nothing is pending inside of what is not pending. -/
theorem Scenario.Visits.not_pending_beneath {start : Start} {p : EffectId}
    (h : s.Visits ⟨.begun turn b nests start :: rest, w⟩) (hstart : ∀ x, start ≠ .pending x)
    (hp : w.wait? ⟨turn.mw, p⟩ = none) (hy : Beneath (w.past turn.mw) p y) :
    w.wait? ⟨turn.mw, y⟩ = none := by
  induction hy with
  | member ht =>
    by_contra hne
    exact h.combinator_pending hstart ht hne hp
  | deeper _ ht ih =>
    by_contra hne
    exact h.combinator_pending hstart ht hne ih

theorem Waits.get?_detachEach_erase (waits : Waits) (x : EffectId) (ids : List EffectId) :
    (detachEach (waits.erase x) ids).2.get? x = none := by
  cases hw : (detachEach (waits.erase x) ids).2.get? x with
  | none => rfl
  | some w =>
    have hw := get?_of_get?_detachEach hw
    simp at hw

theorem Waits.get?_closeRace_erase (waits : Waits) (x : EffectId) (kind : WaitKind) (slot : Nat)
    (signal : Signal) : (closeRace (waits.erase x) kind slot signal).2.2.get? x = none := by
  unfold closeRace
  split
  · exact get?_detachEach_erase waits x _
  · simp

namespace World

variable {nest : Nest} {start start' : Start} {slot : Nat} {es : List Effect} {nests' : List Nest}

/-- An `all` whose last member was started either stays pending, or is gone. -/
theorem nextOfAll_gone (hi : w.Has turn.mw)
    (h : w.nextOfAll turn b x slot es nests = ⟨[.begun turn b nests start'], w'⟩)
    (hstart : ∀ y, start' ≠ .pending y) : w'.wait? ⟨turn.mw, x⟩ = none := by
  cases es with
  | cons => simp [nextOfAll] at h
  | nil =>
    simp only [nextOfAll] at h
    split at h
    · simp only [immediate, Config.mk.injEq] at h
      obtain ⟨-, rfl⟩ := h
      rw [wait?, (((Advances.start hi).setWaits _).record _).waits]
      simp
    · simp only [Config.mk.injEq, List.cons.injEq, Instr.begun.injEq] at h
      exact absurd h.1.1.2.2.2.symm (hstart x)

/-- A combinator whose start is over, and that is not left pending, is gone. -/
theorem execBegun_gone (hi : w.Has turn.mw)
    (h : w.execBegun turn b (nest :: nests) start = ⟨[.begun turn b nests start'], w'⟩)
    (hstart : ∀ y, start' ≠ .pending y) : w'.wait? ⟨turn.mw, nest.id⟩ = none := by
  have hcancel : (w.cancelWait turn.mw nest.id).wait? ⟨turn.mw, nest.id⟩ = none := by
    rw [wait?, hi.waits_cancelWait]
    exact Waits.get?_detach_of_mem List.mem_cons_self
  cases nest with
  | race x slot es =>
    cases start with
    | pending y =>
      cases es with
      | nil =>
        simp only [execBegun, begunInRace, nextOfRace, Config.mk.injEq, List.cons.injEq,
          Instr.begun.injEq] at h
        exact absurd h.1.1.2.2.2.symm (hstart x)
      | cons => simp [execBegun, begunInRace, nextOfRace] at h
    | halt =>
      simp only [execBegun, begunInRace, Config.mk.injEq] at h
      exact h.2 ▸ hcancel
    | immediate signal =>
      simp only [execBegun, begunInRace] at h
      split at h
      · rename_i hnone
        simp only [Config.mk.injEq] at h
        exact h.2 ▸ hnone
      · rename_i wait _
        simp only [immediate, closeRace, Config.mk.injEq] at h
        obtain ⟨-, rfl⟩ := h
        rw [wait?, (((Advances.start hi).walk _ _).record _).waits]
        exact Waits.get?_closeRace_erase _ _ _ _ _
  | all x slot es =>
    cases start with
    | pending y =>
      have hi' : (w.setMember turn.mw x slot y).Has turn.mw := has_setEngine.2 hi
      exact nextOfAll_gone (x := x) hi' h hstart
    | halt =>
      simp only [execBegun, begunInAll, Config.mk.injEq] at h
      exact h.2 ▸ hcancel
    | immediate signal =>
      cases signal with
      | value v => exact nextOfAll_gone (x := x) (has_setEngine.2 hi) h hstart
      | fault | ended =>
        simp only [execBegun, begunInAll, immediate, dropAll, Config.mk.injEq] at h
        obtain ⟨-, rfl⟩ := h
        split
        · assumption
        · rw [wait?, (((Advances.start hi).walk _ _).record _).waits]
          exact Waits.get?_detachEach_erase _ _ _

end World

/-! ## Starts -/

/--
What was registered by a start that comes to nothing is gone. When a tree whose leaves are all left
pending is started, and then withdrawn under the number it got, everything is registered as it was
before; so nobody listens to a deferred that nobody listened to. When a combinator comes to its end
while its members are being started, it is not pending any more, and nothing that was triggered
inside of it is pending or registered.
-/
structure Config.UndoesStarts (c : Config) : Prop where
  withdrawn {turn : Turn} {b : Body} {nests : List Nest} {e : Effect} {rest : List Instr}
    {w : World} {cost : Nat} : c = ⟨.trigger turn b nests e :: rest, w⟩ →
    w.isHalted turn.mw turn.task = false → w.Parks turn [e] cost → cost ≤ w.budget →
    ∃ w', c.Leads ⟨.begun turn b nests (.pending (w.engine turn.mw).nextEffect) :: rest, w'⟩ ∧
      (w'.cancelWait turn.mw (w.engine turn.mw).nextEffect).registry = w.registry
  ended {turn : Turn} {b : Body} {nest : Nest} {nests : List Nest} {start start' : Start}
    {rest : List Instr} {w w' : World} : c = ⟨.begun turn b (nest :: nests) start :: rest, w⟩ →
    c.step = some ⟨.begun turn b nests start' :: rest, w'⟩ → (∀ x, start' ≠ .pending x) →
    w'.wait? ⟨turn.mw, nest.id⟩ = none ∧ ∀ y, Beneath (w'.past turn.mw) nest.id y →
      w'.wait? ⟨turn.mw, y⟩ = none ∧ ∀ kind, ¬ w'.Registered ⟨turn.mw, y⟩ kind

/-- Wherever a run comes to, the registrations of a start that comes to nothing are undone. -/
theorem Scenario.Visits.undoes_starts {c : Config} (h : s.Visits c) : c.UndoesStarts where
  withdrawn := by
    rintro turn b nests e rest w cost rfl hlive he hb
    obtain ⟨w', hl, hs⟩ := h.start_parked he hlive hb
    exact ⟨w', hl, h.registry_cancelWait rfl (h.leads hl) hs⟩
  ended := by
    rintro turn b nest nests start start' rest w w' rfl hc hstart
    have hi : w.Has turn.mw := (h.alive_of_owner rfl).has
    have h' := h.step hc
    have ha' : w'.Alive turn.mw := h'.alive_of_owner rfl
    have hexec : w.execBegun turn b (nest :: nests) start = ⟨[.begun turn b nests start'], w'⟩ := by
      have hn : (w.execBegun turn b (nest :: nests) start).followedBy rest =
          ⟨.begun turn b nests start' :: rest, w'⟩ := Option.some.inj hc
      generalize w.execBegun turn b (nest :: nests) start = next at hn
      obtain ⟨htodo, hworld⟩ := Config.mk.inj hn
      have htodo : next.todo = [.begun turn b nests start'] :=
        List.append_left_injective rest htodo
      exact congrArg₂ Config.mk htodo hworld
    have hgone := World.execBegun_gone hi hexec hstart
    refine ⟨hgone, fun y hy => ?_⟩
    have hnone := h'.not_pending_beneath hstart hgone hy
    refine ⟨hnone, fun kind hr => ?_⟩
    obtain ⟨t, hclaims⟩ := (h'.wired.fits ha').backed hr
    obtain ⟨link, hw⟩ := hclaims.wait
    cases hw.symm.trans hnone

/-- Whether a task starts a race of a take and of an `all`, which are left pending. -/
def Config.parksRace (c : Config) : Bool :=
  match c.todo with
  | .trigger turn _ _ (.racePositional [.take .bus _,
      .all [.take (.channel d) pattern, .join t, .call _ (.sleep _)]]) :: _ =>
    let engine := c.world.engine turn.mw
    !c.world.isHalted turn.mw turn.task && !engine.bus.hasEnded turn.task &&
      (c.world.channels.get? d).any (fun channel =>
        !channel.closed && (channel.buffer.take pattern).isNone) &&
      decide (t.owner = turn.mw ∧ t.id ≠ turn.task) && engine.tasks.isLive t.id &&
      decide (c.world.timerSupport = .available)
  | _ => false

theorem Config.parks_of_parksRace {c : Config} (h : c.parksRace = true) :
    ∃ turn b nests es rest, c.todo = .trigger turn b nests (.racePositional es) :: rest ∧
      c.world.isHalted turn.mw turn.task = false ∧
      c.world.Parks turn [.racePositional es] 0 := by
  unfold parksRace at h
  split at h
  · rename_i _ turn b nests _ d pattern t name ms rest htodo
    simp only [Bool.and_eq_true, Bool.not_eq_true', decide_eq_true_eq, Option.any_eq_true] at h
    obtain ⟨⟨⟨⟨⟨hlive, hbus⟩, channel, hc, hopen, hempty⟩, howner, hother⟩, htask⟩, htimer⟩ := h
    refine ⟨turn, b, nests, _, rest, htodo, hlive, ?_⟩
    have hall : c.world.Parks turn
        [.take (.channel d) pattern, .join t, .call name (.sleep ms)] (0 + (0 + (0 + 0))) :=
      .leaf (.channel hc hopen (Option.isNone_iff_eq_none.1 hempty))
        (.leaf (.join howner hother htask) (.leaf (.sleep htimer) .nil))
    exact .combinator (.racePositional _) (List.cons_ne_nil _ _)
      (.leaf (.bus hbus) (.combinator (.all _) (List.cons_ne_nil _ _) hall .nil)) .nil
  · cases h

/-- A task races an action against a value, the end of another task and some time. -/
def Scenario.racesAll : Scenario where
  middlewares := [{}]
  channels := [("inbox", .buffered .unbounded)]
  scripts := [("waiter", [.perform (.take none (.type "hit")) none none]),
    ("racer", [.perform (.racePositional [.take none (.type "hit"),
      .all [.take (some "inbox") .any, .join (.task "waiter"), .delay (.json (.num (.int 100)))]])
      none none])]
  steps := [.run 0 { source := .named "waiter" } (some "waiter")]

theorem Scenario.undoes_starts_racesAll : ∃ turn b nests es rest w w',
    racesAll.Visits ⟨.trigger turn b nests (.racePositional es) :: rest, w⟩ ∧
    w.Parks turn [.racePositional es] 0 ∧
    Config.Leads ⟨.trigger turn b nests (.racePositional es) :: rest, w⟩
      ⟨.begun turn b nests (.pending (w.engine turn.mw).nextEffect) :: rest, w'⟩ ∧
    (w'.cancelWait turn.mw (w.engine turn.mw).nextEffect).registry = w.registry := by
  have h : ((racesAll.during? (.run 0 { source := .named "racer" } none) 6).any
      Config.parksRace) = true := by
    decide +kernel
  obtain ⟨⟨todo, w⟩, hc, h⟩ := (Option.any_eq_true ..).1 h
  obtain ⟨turn, b, nests, es, rest, rfl, hlive, hparks⟩ := Config.parks_of_parksRace h
  have hv := Visits.of_during? hc
  obtain ⟨w', hl, hreg⟩ := hv.undoes_starts.withdrawn rfl hlive hparks (Nat.zero_le _)
  exact ⟨turn, b, nests, es, rest, w, w', hv, hparks, hl, hreg⟩

end

end SagaMachine
