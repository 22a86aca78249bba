import SagaMachine.Proofs.Consistency
import SagaMachine.Proofs.Encounters
import SagaMachine.Proofs.Statuses

/-!
# Tasks that sleep

A task that is parked on an effect without members sleeps until this effect is settled, or until
its end has come: nothing else wakes it, and its body is not polled before.

Main statements: `Scenario.Visits.sleeps`, `Scenario.Visits.not_polled`.
-/

namespace SagaMachine

/-- A task is parked on an effect, or its end has come. -/
structure Core.Sleeps (k : Core) (t : TaskId) (x : EffectId) : Prop where
  born : t < k.nextTask
  away : k.current ≠ some t
  parked : ∀ {p}, k.posture t = some p →
    p.status.isTerminal = true ∨ p.hasBody = true ∧ p.pending = some x

section

variable {i : MiddlewareId} {k k₁ k' : Core} {t u : TaskId} {x : EffectId} {past es : List Event}
  {y : Instr} {F G : List Instr} {D : List TaskId}

namespace Core.Sleeps

theorem of_same (h : k.Sleeps t x) (hp : k'.posture = k.posture) (hn : k'.nextTask = k.nextTask)
    (hc : k'.current = some t → k.current = some t) : k'.Sleeps t x :=
  ⟨hn ▸ h.born, fun ht => h.away (hc ht), fun hq => h.parked (hp ▸ hq)⟩

theorem alter (h : k.Sleeps t x) {f : Posture → Posture} (hf : u = t → ∀ p, k.posture t = some p →
    (f p).status.isTerminal = true ∨
      (f p).status.isTerminal = p.status.isTerminal ∧ (f p).hasBody = p.hasBody ∧
        (f p).pending = p.pending) : (k.alter u f).Sleeps t x where
  born := h.born
  away := h.away
  parked {p} hp := by
    rw [posture_alter] at hp
    split at hp
    · rename_i htu
      obtain ⟨q, hq, rfl⟩ := Option.map_eq_some_iff.1 hp
      subst htu
      rcases hf rfl q hq with hterm | ⟨hs, hb, hpend⟩
      · exact Or.inl hterm
      · rw [hs, hb, hpend]
        exact h.parked hq
    · exact h.parked hp

theorem bury (h : k.Sleeps t x) (u : TaskId) : (k.bury u).Sleeps t x where
  born := by
    rw [nextTask_bury]
    exact h.born
  away := by
    rw [(Core.paced_bury k u).current]
    exact h.away
  parked {p} hp := by
    rw [posture_bury] at hp
    split at hp
    · cases hp
    · obtain ⟨q, hq, rfl⟩ := Option.map_eq_some_iff.1 hp
      have hparked := h.parked hq
      rw [shed_eq]
      exact hparked

theorem cancelAll (h : k.Sleeps t x) (order : List TaskId) : (k.cancelAll order).Sleeps t x where
  born := by
    rw [Core.nextTask_cancelAll]
    exact h.born
  away := by
    rw [(Core.paced_cancelAll k order).current]
    exact h.away
  parked {p} hp := by
    rw [posture_cancelAll] at hp
    obtain ⟨q, hq, rfl⟩ := Option.map_eq_some_iff.1 hp
    split
    · exact Or.inl rfl
    · exact h.parked hq

theorem create (h : k.Sleeps t x) {parent : Option TaskId} (hpar : parent ≠ some k.nextTask)
    (detached : Bool) : (k.create parent detached).Sleeps t x where
  born := by
    rw [nextTask_create]
    exact Nat.lt_succ_of_lt h.born
  away := by
    rw [(Core.paced_create k parent detached).current]
    exact h.away
  parked {p} hp := by
    rw [posture_create k detached hpar, if_neg (Nat.ne_of_lt h.born)] at hp
    obtain ⟨q, hq, rfl⟩ := Option.map_eq_some_iff.1 hp
    have hparked := h.parked hq
    rw [welcome_eq]
    exact hparked

end Core.Sleeps

/-- A step of another task, or one that does not wait for this effect, lets a task sleep. -/
theorem Begins.sleeps {expected : Option EffectId} {signal : Option Signal}
    (hb : Begins i k u expected signal k' G) (h : k.Sleeps t x)
    (hne : u = t → k.Live t → expected ≠ some x) : k'.Sleeps t x := by
  cases hb with
  | skip => exact h
  | @poll p hp live hpend body b _ _ | @leave p hp live hpend body b _ =>
    have hut : u ≠ t := by
      rintro rfl
      rcases h.parked hp with hterm | ⟨-, hx⟩
      · rw [live] at hterm
        cases hterm
      · exact hne rfl ⟨p, hp, live⟩ (hpend.symm.trans hx)
    exact ⟨h.born, fun hc => hut (Option.some.inj hc), fun hq =>
      (h.alter (u := u) (fun hu => absurd hu hut)).parked hq⟩

theorem Buries.sleeps {outcome : Outcome} {c : Option Cascade}
    (hb : Buries past k u outcome k' c es) (h : k.Sleeps t x) : k'.Sleeps t x := by
  cases hb with
  | absent => exact h
  | gone => exact (h.bury u).of_same rfl rfl id

/-- Below an effect without members there is nothing else. -/
theorem Waits.Under.eq_of_leaf {waits : Waits} {r y : EffectId} {rw : Wait} (h : waits.Under r y)
    (hr : waits.get? r = some rw) (hl : rw.kind.IsLeaf) : y = r := by
  induction h with
  | root => rfl
  | member _ hp hx ih =>
    subst ih
    cases hr.symm.trans hp
    rw [hl.members] at hx
    cases hx

/-- A settlement wakes the task that is parked on a leaf only if it is of this leaf. -/
theorem Tabled.eq_of_wake {y : EffectId} {signal : Signal} {w : Wakeup}
    (hT : Tabled k [.perform i (.reaction (.settle y signal)), .drain i] past)
    (hn : LeafName past y) (hx : LeafName past w.effect)
    (hw : (Waits.settle k.waits y signal).wakeup = some w) {p : Posture}
    (hp : k.posture w.task = some p) (hpend : p.pending = some w.effect) : y = w.effect := by
  cases hy : k.waits.get? y with
  | none =>
    rw [Waits.settle_of_absent hy] at hw
    cases hw
  | some wait =>
    have hF : Waits.Forest k.waits [] .task := hT.forest
    have hwhole : ∀ {z wz}, k.waits.get? z = some wz → wz.kind.Whole := fun hz => hT.whole hz fun g hg => by
      rcases List.mem_cons.1 hg with rfl | hg
      · exact List.not_mem_nil
      · rw [List.mem_singleton.1 hg]
        exact List.not_mem_nil
    have hset := Waits.settles_settle hF hwhole hy (hT.leaf hy hn).members signal
    obtain ⟨htask, -, -⟩ := hset.wakeup hw
    obtain ⟨r, rw, hr, hl, hrt, hu⟩ := hF.exists_root hy
    obtain ⟨q, hq, -, hqr⟩ := hT.rooted hr hl List.not_mem_nil
    rw [hrt, ← htask, hp] at hq
    cases hq
    cases hpend.symm.trans hqr
    exact hu.eq_of_leaf hr (hT.leaf hr hx)

/-- Only the settlement of its effect wakes a task that sleeps. -/
theorem Does.sleeps (h : Does i past y k k' G D es) (hk : k.Sleeps t x) (hx : LeafName past x)
    (hy : ∀ signal, y ≠ .perform i (.reaction (.settle x signal)))
    (hs : Stack i k.current (y :: F)) (ho : Orderly i k (y :: F)) (hT : Tabled k (y :: F) past) :
    k'.Sleeps t x := by
  have hstep : ∀ {u}, y.turn? = some u → u ≠ t := fun hu hut =>
    hk.away ((hs.of_turn hu).1.trans (congrArg some hut))
  have hpark : ∀ {u pending}, y.turn? = some u → (k.park u pending).Sleeps t x := fun {u pending} hu =>
    ⟨hk.born, fun he => (by cases he), fun hq => (hk.alter (u := u) (fun hut => absurd hut (hstep hu))).parked hq⟩
  cases h with
  | start hb | resume hb => exact hb.sleeps hk fun _ _ he => by cases he
  | @wake _ z signal w _ _ hn hw hb =>
    refine hb.sleeps (hk.of_same rfl rfl id) fun hut hl hwx => hy signal ?_
    obtain ⟨p, hp, hlive⟩ := hl
    subst hut
    cases hwx
    have hpend := ((hk.parked hp).resolve_left (by simp [hlive])).2
    obtain ⟨-, rfl⟩ := hs.of_works trivial
    rw [hT.eq_of_wake hn hx hw hp hpend]
  | triggerForks hl =>
    have hnum : k.number.Sleeps t x := hk.of_same rfl rfl id
    have hne := ho.ne_unborn hl
    exact (hnum.create (fun he => hne (Option.some.inj he)) _).of_same rfl rfl id
  | leaveSuspended => exact hpark rfl
  | leaveYielded => exact (hpark rfl).of_same rfl rfl id
  | leaveFinished | leaveEnded | leaveFailed | leaveHalted =>
    exact hk.of_same rfl rfl fun he => by cases he
  | returned hp hl hc => exact hk.alter fun _ _ _ => Or.inr ⟨rfl, rfl, rfl⟩
  | returnedHeld hp hl hc =>
    refine hk.alter fun hut q hq => Or.inr ⟨?_, rfl, rfl⟩
    subst hut
    cases hp.symm.trans hq
    exact hl.symm
  | abort hp hl => exact (hk.alter fun _ _ _ => Or.inl rfl).of_same rfl rfl id
  | abortDone hb | cancelOne hb => exact hb.sleeps hk
  | conclude hb => exact hb.sleeps (hk.of_same rfl rfl id)
  | cascadeComplete hp hl hv hb =>
    exact hb.sleeps (hk.alter fun _ _ _ => Or.inr ⟨rfl, rfl, rfl⟩)
  | cancel => exact hk.cancelAll _
  | cancelEach hp =>
    refine (hk.alter fun hut q hq => Or.inl ?_).of_same rfl rfl id
    subst hut
    exact (ho.frames _ List.mem_cons_self _ List.mem_cons_self).2 q hq
  | allNext hk' | allFull hk' | allComplete hk' =>
    rcases hk' with ⟨_, _, rfl⟩ | ⟨_, _, rfl⟩ <;> exact hk.of_same rfl rfl id
  | _ => exact hk.of_same rfl rfl id

theorem Intervenes.sleeps (h : Intervenes i past k k' G es) (hk : k.Sleeps t x) : k'.Sleeps t x := by
  have hdrives : ∀ {k₁ k' : Core} {work G}, Drives i k₁ work k' G → k₁.Sleeps t x → k'.Sleeps t x := by
    intro k₁ k' work G hd h₁
    cases hd with
    | within => exact h₁
    | starts => exact h₁.of_same rfl rfl id
  cases h with
  | quietly => exact hk
  | spawns hd => 
    have hcreate : (k.create none false).Sleeps t x := hk.create (fun he => by cases he) false
    exact hdrives hd (hcreate.of_same rfl rfl id)
  | settles _ hd _ => exact hdrives hd (hk.of_same rfl rfl id)
  | cancels hd => exact hdrives hd hk
  | queues | sends => exact hk.of_same rfl rfl id

end

namespace Scenario.Visits

variable {s : Scenario} {c c' : Config} {w : World} {i : MiddlewareId} {t : TaskId} {x : EffectId}
  {y : Instr} {rest : List Instr}

/-- Only the settlement of its effect wakes a task that sleeps. -/
theorem sleeps (h : s.Visits ⟨y :: rest, w⟩) (ha : w.Alive i) (hx : LeafName (w.past i) x)
    (hs : (w.core i).Sleeps t x) (hy : ∀ signal, y ≠ .perform i (.reaction (.settle x signal)))
    (hrest : y.owner? = some i ∨ rest ≠ []) (hc : Config.step ⟨y :: rest, w⟩ = some c') :
    (c'.world.core i).Sleeps t x := by
  have hi : w.Has i := ha.has
  have hsound := h.sound hi
  obtain ⟨next, -, rfl, hm⟩ := Config.meets_of_step h.knows hi hc
  cases hm with
  | own ho hadv hdoes =>
    have hF : framesOf i (y :: rest) = y :: framesOf i rest := by simp [ho]
    have hstack := hsound.framed.stack
    have hord := hsound.orderly
    have htab := hsound.tabled (by simpa [Config.view, World.Alive] using ha)
    simp only [Config.view, hF] at hstack hord htab
    exact hadv.core ▸ hdoes.sleeps hs hx hy hstack hord htab
  | foreign _ hadv hin => exact hadv.core ▸ hin.sleeps hs
  | @drops t b hxd hn =>
    subst hxd hn
    exact hs
  | dies hyd hr =>
    subst hyd
    rcases hrest with ho | hne
    · cases ho
    · exact absurd hr hne

/-- The body of a task that sleeps is not polled. -/
theorem not_polled (h : s.Visits c) {b : Body} {a : Option Answer}
    (hpoll : c.todo = .poll ⟨i, t⟩ b a :: rest) : ¬ (c.world.core i).Sleeps t x := by
  intro hs
  obtain ⟨todo, w⟩ := c
  subst hpoll
  have hi : w.Has i := (h.alive_of_owner (i := i) rfl).has
  have hstack := (h.sound hi).framed.stack
  have hF : framesOf i (.poll ⟨i, t⟩ b a :: rest) = .poll ⟨i, t⟩ b a :: framesOf i rest := by
    simp [Instr.owner?]
  simp only [Config.view, hF] at hstack
  exact hs.away (hstack.of_turn rfl).1

end Scenario.Visits

end SagaMachine
