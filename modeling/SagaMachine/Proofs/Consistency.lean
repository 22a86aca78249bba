import Mathlib.Data.List.Nodup
import SagaMachine.Proofs.Deliveries

/-!
# Registrations at every moment of a run

Pending effects, registrations and settlements on their way fit together wherever a scenario
comes to. Between two operations from outside nothing is on its way any more, so whatever waits is
registered, exactly once, and whatever is registered waits.

Main statements: `Scenario.Visits.wired`, `Scenario.Passes.wired`,
`Scenario.Passes.registrations_attuned`.
-/

namespace SagaMachine

/-! ## Frames and their middlewares -/

/-- A middleware that does not exist has no frames. -/
theorem Config.Knows.framesOf_nil {c c' : Config} {i : MiddlewareId} (hk : c.Knows)
    (hi : ¬ c.world.Has i) (hF : framesOf i c.todo = []) (hc : c.step = some c') :
    framesOf i c'.todo = [] := by
  obtain ⟨todo, w⟩ := c
  unfold Config.step at hc
  simp only at hc
  split at hc
  · cases hc
  · rename_i x rest
    obtain ⟨next, hn, rfl⟩ := Option.map_eq_some_iff.1 hc
    rw [framesOf_cons] at hF
    have hx : x.owner? ≠ some i := fun ho => by simp [ho] at hF
    rw [if_neg hx] at hF
    rw [Config.followedBy, framesOf_append, hF, List.append_nil]
    have dead : ∀ {w' : World}, (w'.Has i ↔ w.Has i) → w'.alive? i ≠ some true := by
      intro w' hw ha
      exact hi (hw.1 (World.Bears.has_of_alive ha))
    have of_bears : ∀ {w' : World}, (w'.Has i ↔ w.Has i) → w'.Bears i next →
        framesOf i next.todo = [] := by
      rintro w' hw (hs | ⟨ha, -⟩)
      · exact framesOf_spares hs.todo
      · exact absurd ha (dead hw)
    rcases hk.todo with ⟨o, ho⟩ | hx'
    · cases ho
      obtain ⟨w', hs, rfl⟩ := Option.map_eq_some_iff.1 hn
      have hu : World.Untouched i w w' := World.Enacts.GoesOn.spend (fun i => .refl i w) hs i
      have hw : w'.Has i ↔ w.Has i := by rw [World.has_iff, World.has_iff, hu.alive]
      have hw' : w'.Knows := (World.Teaches.spend (.start hk.world) hs).knows
      by_cases ho : o = .drop i
      · subst ho
        cases hm : w'.living? i with
        | some m => exact absurd (World.Bears.alive_of_living hm) (dead hw)
        | none =>
          simp only [World.runOp, World.opDrop, hm]
          exact framesOf_neutral rfl
      · exact of_bears hw (World.Bears.runOp hw' .outside .empty o (Or.inr ho))
    · have hxk : x.Knows w.past := hx' x List.mem_cons_self
      cases ho : x.owner? with
      | some j =>
        have hij : i ≠ j := fun h => hx (h ▸ ho)
        exact framesOf_spares (World.Spares.exec hij ho hn).todo
      | none =>
        cases hd : x.drops? i with
        | none => exact of_bears Iff.rfl (World.Bears.exec hk.world hxk ho hd hn)
        | some t =>
          cases x with
          | dropBody turn b =>
            cases hn
            exact framesOf_neutral rfl
          | _ => cases hd

namespace Scenario.Visits

variable {s : Scenario} {c : Config} {i : MiddlewareId} {x : Instr} {F : List Instr} {w : World}

theorem framesOf_nil (h : s.Visits c) (hi : ¬ c.world.Has i) : framesOf i c.todo = [] := by
  induction h with
  | start => rfl
  | call => rfl
  | step h hc ih =>
    have hi' := mt (h.knows.has_iff hc i).2 hi
    exact h.knows.framesOf_nil hi' (ih hi') hc

/-- The middleware of a frame exists, and was not dropped. -/
theorem alive_of_owner (h : s.Visits ⟨x :: F, w⟩) (hx : x.owner? = some i) : w.Alive i := by
  have hF : framesOf i (x :: F) = x :: framesOf i F := by simp [framesOf, hx]
  have hi : w.Has i := by
    by_contra hi
    have := h.framesOf_nil hi
    rw [hF] at this
    cases this
  have hs : Sound i (Config.view ⟨x :: F, w⟩ i) := h.sound hi
  have hd : (Config.view ⟨x :: F, w⟩ i).alive ≠ false := by
    intro ha
    have := (hs.framed.dead ha).1
    rw [show (Config.view ⟨x :: F, w⟩ i).frames = x :: framesOf i F from hF] at this
    cases this
  obtain ⟨m, hm⟩ := hi
  have hv : (Config.view ⟨x :: F, w⟩ i).alive = m.alive := by
    simp [Config.view, World.alive?, hm]
  rw [hv] at hd
  simpa [World.Alive, World.alive?, hm] using hd

/-- A number that tasks will be created under is not used yet. -/
theorem task?_nextTask (h : s.Visits c) (hi : c.world.Has i) :
    c.world.task? i (c.world.engine i).nextTask = none := by
  cases hn : c.world.task? i (c.world.engine i).nextTask with
  | none => rfl
  | some n =>
    have hp : (c.world.core i).posture (c.world.engine i).nextTask = some n.posture := by
      rw [World.posture_core, hn]
      rfl
    exact absurd ((h.sound hi).orderly.tasks hp).number (Nat.lt_irrefl _)

end Scenario.Visits

/-! ## New effects -/

/-- Whatever is about to be settled, or to be answered, is an effect without members. -/
theorem Instr.Knows.leafName {past : MiddlewareId → List Event} {x : Instr} {r : EffectRef}
    (h : x.Knows past) (hx : x.Settles r ∨ x.Makes r) : LeafName (past r.mw) r.effect := by
  cases x with
  | perform i job =>
    rcases hx with hx | hx
    · cases job with
      | reaction y =>
        cases y with
        | settle z signal =>
          cases hx
          exact h
        | _ => exact hx.elim
      | errand e =>
        obtain ⟨z, hz, rfl⟩ := hx
        exact (h z hz).leafName
    · exact hx.elim
  | schedule i y =>
    rcases hx with hx | hx
    · obtain ⟨z, signal, rfl, hz⟩ := h
      cases hx
      exact hz
    · exact hx.elim
  | emit i a sender | forwarded i a sender =>
    rcases hx with hx | hx
    · cases sender with
      | effect z =>
        cases hx
        exact PutName.leafName h
      | _ => exact hx.elim
    · exact hx.elim
  | deliver sink d =>
    rcases hx with hx | hx
    · cases sink with
      | effect z =>
        cases hx
        exact h
      | script => exact hx.elim
    · exact hx.elim
  | answer turn body nests y result env =>
    rcases hx with hx | hx
    · exact hx.elim
    · cases hx
      exact CallName.leafName h
  | _ =>
    rcases hx with hx | hx
    · exact hx.elim
    · exact hx.elim

theorem Engine.Knows.leafName {past : List Event} {e : Engine} (h : e.Knows past) {x : EffectId}
    (hx : e.agenda.Owes x) : LeafName past x := by
  rcases hx with ⟨signal, hm | hm⟩ | ⟨a, ha, he⟩
  · exact h.stack _ hm
  · exact h.fresh _ hm
  · exact (h.errand a ha x he).leafName

/-- Nothing is known of an effect before it is started. -/
theorem Scenario.Visits.new {s : Scenario} {x : Instr} {F : List Instr} {w : World}
    (h : s.Visits ⟨x :: F, w⟩) {i : MiddlewareId} (hx : x.owner? = some i) :
    Config.New ⟨F, w⟩ ⟨i, (w.engine i).nextEffect⟩ := by
  have hi : w.Has i := (h.alive_of_owner hx).has
  have ht : Tabled (w.core i) (x :: framesOf i F) (w.past i) := (h.grounds hx hi).tabled
  have hleaf : ∀ {y}, LeafName (w.past i) y → y < (w.engine i).nextEffect := by
    rintro y ⟨t, p, e, he, -⟩
    exact ht.named he
  have hF : ∀ y ∈ F, y.Knows w.past := by
    rcases h.knows.todo with ⟨o, ho⟩ | hk
    · cases ho
      cases hx
    · exact fun y hy => hk y (List.mem_cons_of_mem _ hy)
  refine ⟨?_, ?_, ?_⟩
  · rintro t k ⟨-, link, hw⟩
    exact Nat.lt_irrefl _ (ht.number hw)
  · rintro (ho | ⟨y, hy, hs⟩)
    · exact Nat.lt_irrefl _ (hleaf ((h.knows.world.engine i).leafName ho))
    · exact Nat.lt_irrefl _ (hleaf ((hF y hy).leafName (Or.inl hs)))
  · rintro ⟨y, hy, hm⟩
    exact Nat.lt_irrefl _ (hleaf ((hF y hy).leafName (Or.inr hm)))

/-- Whoever joins on a task was started before an effect that is about to be started. -/
theorem Scenario.Visits.joiners_older {s : Scenario} {x : Instr} {F : List Instr} {w : World}
    (h : s.Visits ⟨x :: F, w⟩) {i : MiddlewareId} (hx : x.owner? = some i) (u : TaskId) :
    ∀ y ∈ w.joiners i u, y < (w.engine i).nextEffect := by
  have hi : w.Has i := (h.alive_of_owner hx).has
  have ht : Tabled (w.core i) (x :: framesOf i F) (w.past i) := (h.grounds hx hi).tabled
  intro y hy
  unfold World.joiners at hy
  cases hn : w.task? i u with
  | none =>
    rw [hn] at hy
    cases hy
  | some n =>
    rw [hn] at hy
    obtain ⟨t, p, e, he, -⟩ := (h.knows.world.engine i).joiner u n hn y hy
    exact ht.named he

/-! ## Every step -/

/-- Everything fits together after a step, if it did before. -/
theorem Config.Wired.exec {A : Prop} {s : Scenario} {x : Instr} {F : List Instr} {w : World}
    (h : Wired A ⟨x :: F, w⟩) (hv : s.Visits ⟨x :: F, w⟩) {c : Config} (hc : x.exec w = some c)
    (hs : A → c.world.Sole) : Wired A (c.followedBy F) := by
  have hk := hv.knows
  have hxk : x.owner?.isSome → x.Knows w.past := by
    intro ho
    rcases hk.todo with ⟨o, heq⟩ | hk
    · cases heq
      cases ho
    · exact hk x List.mem_cons_self
  have mute : x.plays = false → Wired A ⟨F, w⟩ := fun hp => h.drop (.of_plays hp)
  have alive : ∀ {i}, x.owner? = some i → w.Alive i := fun ho => hv.alive_of_owner ho
  have has : ∀ {i}, x.owner? = some i → w.Has i := fun ho => (alive ho).has
  have grounds : ∀ {i}, x.owner? = some i → Grounds i x F w := fun ho => hv.grounds ho (has ho)
  have hn : ∀ i, w.Has i → w.task? i (w.engine i).nextTask = none := fun i hi => hv.task?_nextTask hi
  cases x with
  | drain i => cases hc; exact (mute rfl).execDrain
  | perform i job =>
    cases hc
    have hg := grounds (i := i) rfl
    obtain ⟨-, hrest⟩ := hg.stack.of_works trivial
    have hloose : looseOf (.perform i job :: framesOf i F) = [] := by
      rw [hrest]
      rfl
    refine h.execPerform (has rfl) ?_ (fun {z wait} hz => hg.tabled.whole hz fun y hy => ?_)
      fun {y signal wait} hj hw => ?_
    · have := hg.tabled.forest
      rwa [hloose] at this
    · rw [hrest] at hy
      rcases List.mem_cons.1 hy with rfl | hy
      · exact List.not_mem_nil
      · rw [List.mem_singleton.1 hy]
        exact List.not_mem_nil
    · subst hj
      exact hg.tabled.leaf hw (hxk rfl)
  | schedule i r => cases hc; exact h.execSchedule
  | poll turn b a => cases hc; exact (mute rfl).quiet (.execPoll b a)
  | advance turn b m => exact (mute rfl).quiet (.execAdvance hc)
  | polled turn b step => cases hc; exact (mute rfl).quiet (.execPolled b step)
  | trigger turn b nests e =>
    cases hc
    exact (mute rfl).execTrigger (alive rfl) (hv.new rfl) (hv.joiners_older rfl)
      (hn turn.mw (has rfl)) e hs
  | answer turn b nests y result env =>
    cases hc
    obtain ⟨-, hrest⟩ := (grounds (i := turn.mw) rfl).stack.of_turn rfl
    obtain ⟨h1, hnew⟩ := h.made (fun r hr => hr) (r := ⟨turn.mw, y⟩) (alive rfl) rfl fun z hz hm => by
      cases z with
      | answer turn' b' nests' y' result' env' =>
        have hmem : Instr.answer turn' b' nests' y' result' env' ∈ framesOf turn.mw F := by
          refine List.mem_filter.2 ⟨hz, ?_⟩
          have hmw : turn.mw = turn'.mw := congrArg EffectRef.mw hm
          simp [Instr.owner?, hmw]
        rw [hrest] at hmem
        cases List.mem_singleton.1 hmem
      | _ => exact hm.elim
    exact h1.execAnswer (alive rfl) hnew result env hs
  | cancelDone turn b nests y =>
    cases hc
    unfold World.execCancelDone
    split
    · exact (mute rfl).quiet (.of_calm (.refl _) rfl)
    · exact (mute rfl).immediate _
  | begun turn b nests start =>
    cases hc
    have hopen : Open (w.engine turn.mw).waits turn.task nests := by
      have hst := (grounds (i := turn.mw) rfl).tabled.frames _ List.mem_cons_self
      cases start with
      | pending y => exact hst.1
      | _ => exact hst
    refine (mute rfl).execBegun (has rfl) (fun n hm {wait} hw => ?_) start
    exact hopen.not_isLeaf hm hw
  | leave turn b exit => cases hc; exact (mute rfl).execLeave turn b exit
  | dropBody turn b =>
    cases hc
    exact (mute rfl).quiet (.of_calm (.record _) rfl)
  | returned turn v => cases hc; exact (mute rfl).execReturned turn v
  | abort turn f => cases hc; exact (mute rfl).execAbort turn (has rfl) f
  | abortDone turn f wasCurrent => cases hc; exact (mute rfl).execAbortDone turn (has rfl) f wasCurrent
  | conclude turn => cases hc; exact (mute rfl).execConclude turn (has rfl)
  | cascade i c' => cases hc; exact (mute rfl).execCascade (has rfl) c'
  | cancel i root => cases hc; exact (mute rfl).execCancel root
  | cancelEach i order cascades =>
    cases hc
    exact (mute rfl).execCancelEach (has rfl) order cascades
  | cancelOne turn wasCurrent rest cascades =>
    cases hc
    exact (mute rfl).execCancelOne turn (has rfl) wasCurrent rest cascades
  | emit i a sender => cases hc; exact h.execEmit (has rfl)
  | forwarded i a sender => cases hc; exact h.execForwarded (has rfl)
  | deliver sink d => cases hc; exact h.execDeliver
  | guards gs =>
    cases hc
    cases gs with
    | nil => exact mute rfl
    | cons g gs => exact (mute rfl).quiet (.of_calm (.enter _) rfl)
  | ops env os =>
    cases hc
    cases os with
    | nil => exact mute rfl
    | cons o os => exact (mute rfl).quiet (.of_calm (.refl _) rfl)
  | op site env o =>
    obtain ⟨w', hw, rfl⟩ := Option.map_eq_some_iff.1 hc
    have hcalm : w.Calm w' := .spend hw
    refine ((mute rfl).calm hcalm).runOp (fun i ha => ?_) site env o
    have hu : World.Untouched i w w' := World.Enacts.GoesOn.spend (fun i => .refl i w) hw i
    rw [World.task?, hu.engine]
    exact hn i (hcalm.alive_iff.1 ha).has
  | reply site name r =>
    cases hc
    cases site with
    | outside => exact (mute rfl).calm (.of_eq rfl rfl rfl rfl rfl rfl rfl rfl)
    | nested => exact (mute rfl).calm (.enter _)
  | started site label t =>
    cases hc
    exact (mute rfl).quiet (.of_calm (.register label _) rfl)
  | registered site tag c' id => cases hc; exact h.execRegistered
  | moveClock target => cases hc; exact (mute rfl).execMoveClock target

/-! ## Every moment of a run -/

theorem World.Fresh.claims {w : World} (h : w.Fresh) {r : EffectRef} {t : TaskId} {k : WaitKind} :
    ¬ w.Claims r t k := by
  rintro ⟨-, link, hw⟩
  have he : w.engine r.mw = {} := h.engine r.mw
  simp only [World.wait?, he] at hw
  cases hw

/-- Nothing is registered anywhere before anything has happened. -/
theorem World.Fresh.wired {w : World} (h : w.Fresh) (A : Prop) : Config.Wired A ⟨[], w⟩ := by
  have he : ∀ i, w.engine i = {} := h.engine
  have hj : ∀ i t, w.joiners i t = [] := fun i t => by
    simp only [World.joiners, World.task?, he]
    rfl
  have hreg : ∀ {r k}, ¬ w.Registered r k := by
    intro r k hr
    cases hr with
    | bus ht => rw [he] at ht; cases ht
    | channel hc ht => rw [(h.channel _ _ hc).1] at ht; cases ht
    | call hd hl => rw [(h.deferred _ _ hd).1] at hl; cases hl
    | join hm => rw [hj] at hm; cases hm
  refine ⟨⟨fun i => ?_, fun ht => ?_, fun ht => ?_, fun hc => absurd hc h.claims, fun hc => ?_,
      fun hc ht => ?_, fun hc hcl => (h.channel _ _ hc).1, fun hc => absurd hc h.claims, fun i t => ?_,
      fun hd hl => ?_⟩, ⟨fun hm => ?_, fun hd hid => ?_, fun hd => (h.deferred _ _ hd).2, fun hn => ?_⟩,
    fun hd => ?_, fun _ _ _ _ _ _ hc => absurd hc h.claims, fun _ =>
      ⟨fun hr => absurd hr hreg, fun hr => absurd hr hreg, ?_, fun _ hc => absurd hc h.claims⟩⟩
  · rw [he]
    exact List.nodup_nil
  · rw [he] at ht
    cases ht
  · rw [he] at ht
    cases ht
  · rw [(h.channel _ _ hc).1]
    exact List.nodup_nil
  · rw [(h.channel _ _ hc).1] at ht
    cases ht
  · rw [hj]
    exact .nil
  · rw [(h.deferred _ _ hd).1] at hl
    cases hl
  · rw [h.timers] at hm
    cases hm
  · rw [(h.deferred _ _ hd).1] at hid
    cases hid
  · obtain ⟨deferred, hd⟩ := h.named _ _ hn
    exact ⟨deferred, hd, by rw [(h.deferred _ _ hd).1]⟩
  · rcases hd with ⟨tag, htag⟩ | ⟨y, hy, -⟩
    · rw [h.tags] at htag
      cases htag
    · cases hy
  · rintro ⟨y, hy, -⟩
    cases hy

/-- The next operation from outside comes in. -/
theorem Config.Wired.call {A : Prop} {w : World} (h : Wired A ⟨[], w⟩) (o : Op) (budget : Nat) :
    Wired A ⟨[.op .outside .empty o], { w with reply := none, budget }⟩ := by
  have h1 : Wired A ⟨[], { w with reply := none, budget }⟩ :=
    h.calm (.of_eq rfl rfl rfl rfl rfl rfl rfl rfl)
  exact h1.cons (.of_plays rfl)

theorem Config.Wired.step {A : Prop} {s : Scenario} {c c' : Config} (h : c.Wired A) (hv : s.Visits c)
    (hc : c.step = some c') (hs : A → c'.world.Sole) : c'.Wired A := by
  obtain ⟨todo, w⟩ := c
  unfold Config.step at hc
  simp only at hc
  split at hc
  · cases hc
  · obtain ⟨next, hn, rfl⟩ := Option.map_eq_some_iff.1 hc
    exact h.exec hv hn hs

namespace Scenario

variable {s : Scenario} {c c' : Config} {w : World} {i : MiddlewareId} {P : World → Prop}

/-- Whoever is registered anywhere waits for it, wherever a scenario comes to. -/
theorem Visits.wired (h : s.Visits c) : c.Wired False := by
  induction h with
  | start h => exact (setUp_fresh h).wired False
  | call h o budget ih => exact ih.call o budget
  | step h hc ih => exact ih.step h hc False.elim

/-- A configuration that a scenario comes to in worlds that all have a property. -/
inductive Passes (s : Scenario) (P : World → Prop) : Config → Prop
  | start {w : World} (h : s.setUp = .ok w) (hP : P w) : s.Passes P ⟨[], w⟩
  | call {w : World} (h : s.Passes P ⟨[], w⟩) (o : Op) (budget : Nat)
      (hP : P { w with reply := none, budget }) :
      s.Passes P ⟨[.op .outside .empty o], { w with reply := none, budget }⟩
  | step {c c' : Config} (h : s.Passes P c) (hc : c.step = some c') (hP : P c'.world) : s.Passes P c'

namespace Passes

theorem visits (h : s.Passes P c) : s.Visits c := by
  induction h with
  | start h => exact .start h
  | call h o budget hP ih => exact ih.call o budget
  | step h hc hP ih => exact ih.step hc

/-- If no two calls ever wait for one deferred, whoever waits is registered or will be told. -/
theorem wired (h : s.Passes World.Sole c) : c.Wired True := by
  induction h with
  | start h => exact (setUp_fresh h).wired True
  | call h o budget hP ih => exact ih.call o budget
  | step h hc hP ih => exact ih.step h.visits hc fun _ => hP

end Passes

/-- Nothing is on its way to any effect between two operations. -/
theorem Visits.owes_nil (h : s.Visits ⟨[], w⟩) {r : EffectRef} (hi : w.Has r.mw) :
    ¬ Config.Owes ⟨[], w⟩ r := by
  rintro (ho | ⟨x, hx, -⟩)
  · have ha : (w.engine r.mw).agenda = {} := (h.sound hi).framed.idle rfl
    rw [ha] at ho
    rcases ho with ⟨signal, hm | hm⟩ | ⟨e, hm, -⟩ <;> cases hm
  · cases hx

end Scenario

/-! ## Between two operations -/

/-- Something occurs in a list, and only once. -/
def Once {α : Type} (p : α → Prop) (as : List α) : Prop :=
  ∃ xs a ys, as = xs ++ a :: ys ∧ p a ∧ ∀ b ∈ xs ++ ys, ¬ p b

theorem Once.of_nodup {α β : Type} {f : α → β} {p : α → Prop} {as : List α} {a : α}
    (hn : (as.map f).Nodup) (ha : a ∈ as) (hp : p a) (hu : ∀ b ∈ as, p b → f b = f a) : Once p as := by
  obtain ⟨xs, ys, rfl⟩ := List.append_of_mem ha
  refine ⟨xs, a, ys, rfl, hp, fun b hb hpb => ?_⟩
  have hmem : b ∈ xs ++ a :: ys := by
    rcases List.mem_append.1 hb with hb | hb
    · exact List.mem_append_left _ hb
    · exact List.mem_append_right _ (List.mem_cons_of_mem _ hb)
  have heq := hu b hmem hpb
  rw [List.map_append, List.map_cons, List.perm_middle.nodup_iff, List.nodup_cons] at hn
  refine hn.1 ?_
  rw [← heq, ← List.map_append]
  exact List.mem_map_of_mem hb

/--
The pending effects of a middleware without members and its registrations correspond one to one:
whatever waits is registered exactly once with what can wake it, and nothing else is registered.
-/
structure World.Attuned (w : World) (i : MiddlewareId) : Prop where
  /-- A take on the bus has one taker, which its task owns. -/
  onBus : ∀ {x t link id}, (w.engine i).waits.get? x = some ⟨t, link, .take .bus id⟩ →
    Once (fun b => b.effect = x ∧ b.owner = t ∧ b.id = id) (w.engine i).bus.takers
  /-- Every taker of the bus stands for the take of its owner. -/
  bus : ∀ {b}, b ∈ (w.engine i).bus.takers → ∃ link,
    (w.engine i).waits.get? b.effect = some ⟨b.owner, link, .take .bus b.id⟩
  /-- A take on a channel has one taker there, and the channel is open. -/
  onChannel : ∀ {x t link c id}, (w.engine i).waits.get? x = some ⟨t, link, .take (.channel c) id⟩ →
    ∃ channel, w.channels.get? c = some channel ∧ channel.closed = false ∧
      (∃ b ∈ channel.takers, b.id = id ∧ b.sink = .effect ⟨i, x⟩) ∧
      Once (fun b => b.sink = .effect ⟨i, x⟩) channel.takers
  /-- Every taker on a channel that the middleware registered stands for a take. -/
  channel : ∀ {c channel b x}, w.channels.get? c = some channel → b ∈ channel.takers →
    b.sink = .effect ⟨i, x⟩ → ∃ t link,
      (w.engine i).waits.get? x = some ⟨t, link, .take (.channel c) b.id⟩
  /-- A join is among the joiners of its target once, and the target is in the table. -/
  onTask : ∀ {x t link u}, (w.engine i).waits.get? x = some ⟨t, link, .join u⟩ →
    ∃ n, w.task? i u = some n ∧ Once (· = x) n.joiners
  /-- Joiners are joins that wait. -/
  joiner : ∀ {u n x}, w.task? i u = some n → x ∈ n.joiners →
    ∃ t link, (w.engine i).waits.get? x = some ⟨t, link, .join u⟩
  /-- A call waits for a deferred that is not settled, and is its listener. -/
  onDeferred : ∀ {x t link d}, (w.engine i).waits.get? x = some ⟨t, link, .call d⟩ →
    ∃ deferred, w.deferreds.get? d = some deferred ∧ deferred.outcome = none ∧
      deferred.listener = some ⟨i, x⟩
  /-- A listener is a call that waits. -/
  listener : ∀ {d deferred x}, w.deferreds.get? d = some deferred →
    deferred.listener = some ⟨i, x⟩ → ∃ t link,
      (w.engine i).waits.get? x = some ⟨t, link, .call d⟩
  /-- No put waits. -/
  put : ∀ {x wait}, (w.engine i).waits.get? x = some wait → wait.kind ≠ .put
  /-- A running timer belongs to a call that waits for it. -/
  timer : ∀ {timer}, timer ∈ w.timers → ∃ deferred r,
    w.deferreds.get? timer.deferred = some deferred ∧ deferred.timer = some timer.id ∧
      deferred.listener = some r ∧ (r.mw = i → ∃ t link,
        (w.engine i).waits.get? r.effect = some ⟨t, link, .call timer.deferred⟩)

namespace Config.Wired

variable {A : Prop} {w : World} {i : MiddlewareId}

/-- Whatever is registered waits for it, and only for it. -/
theorem wait_of_registered {F : List Instr} (h : Wired A ⟨F, w⟩) (ha : w.Alive i) {x : EffectId}
    {k : WaitKind} (hr : w.Registered ⟨i, x⟩ k) :
    ∃ t link, (w.engine i).waits.get? x = some ⟨t, link, k⟩ := by
  obtain ⟨t, -, link, hw⟩ := (h.fits ha).backed hr
  exact ⟨t, link, hw⟩

/-- Where nothing is on its way, waits and registrations correspond one to one. -/
theorem attuned {F : List Instr} (h : Wired True ⟨F, w⟩) (ha : w.Alive i)
    (ho : ∀ x, ¬ Owes ⟨F, w⟩ ⟨i, x⟩) : w.Attuned i := by
  have hreg : ∀ {x t link k}, (w.engine i).waits.get? x = some ⟨t, link, k⟩ → k.IsLeaf →
      w.Registered ⟨i, x⟩ k := fun hw hl =>
    ((h.fits ha).served (fun _ _ => trivial) (r := ⟨i, _⟩) ⟨hl, _, hw⟩).resolve_right (ho _)
  have hone : ∀ {x k k'}, w.Registered ⟨i, x⟩ k → w.Registered ⟨i, x⟩ k' → k = k' := by
    intro x k k' hr hr'
    obtain ⟨t, link, hw⟩ := h.wait_of_registered ha hr
    obtain ⟨t', link', hw'⟩ := h.wait_of_registered ha hr'
    rw [hw] at hw'
    cases hw'
    rfl
  refine ⟨fun hw => ?_, fun {b} hb => ?_, fun {x t link c id} hw => ?_, fun hc hb hs => ?_,
    fun {x t link u} hw => ?_, fun {u n x} hn hx => ?_, fun {x t link d} hw => ?_, fun hd hl => ?_,
    fun {x wait} hw hk => ?_, fun {timer} hm => ?_⟩
  · rename_i x t link id
    have hr := hreg hw trivial
    generalize hk : WaitKind.take .bus id = k at hr
    cases hr with
    | @bus b hb he =>
      cases hk
      refine Once.of_nodup (h.numbered.bus i) hb ⟨he, ?_, rfl⟩ fun b' hb' hp => hp.2.2
      have hc : w.Claims ⟨i, b.effect⟩ t (.take .bus b.id) := ⟨trivial, link, he.symm ▸ hw⟩
      exact (h.numbered.owner hb hc).symm
    | _ => cases hk
  · obtain ⟨t, link, hw⟩ := h.wait_of_registered ha (.bus hb rfl)
    have hc : w.Claims ⟨i, b.effect⟩ t (.take .bus b.id) := ⟨trivial, link, hw⟩
    exact ⟨link, by rw [hw, h.numbered.owner hb hc]⟩
  · have hr := hreg hw trivial
    generalize hk : WaitKind.take (.channel c) id = k at hr
    cases hr with
    | @channel c channel b hc hb hs =>
      cases hk
      refine ⟨channel, hc, ?_, ⟨b, hb, rfl, hs⟩, ?_⟩
      · cases hcl : channel.closed with
        | false => rfl
        | true =>
          rw [h.numbered.closed hc hcl] at hb
          cases hb
      · refine Once.of_nodup (h.numbered.channel hc) hb hs fun b' hb' hs' => ?_
        have hk := hone (.channel hc hb' hs') (.channel hc hb hs)
        rw [WaitKind.take.injEq] at hk
        exact hk.2
    | _ => cases hk
  · exact h.wait_of_registered ha (.channel hc hb hs)
  · have hr := hreg hw trivial
    generalize hk : WaitKind.join u = k at hr
    cases hr with
    | @join u hj =>
      cases hk
      unfold World.joiners at hj
      cases hn : w.task? i u with
      | none =>
        rw [hn] at hj
        cases hj
      | some n =>
        rw [hn] at hj
        have hnd : (w.joiners i u).Nodup := (h.numbered.joiners i u).imp Nat.ne_of_lt
        rw [World.joiners, hn] at hnd
        exact ⟨n, rfl, Once.of_nodup (f := id) (by simpa using hnd) hj rfl fun b _ hb => hb⟩
    | _ => cases hk
  · refine h.wait_of_registered ha (.join ?_)
    rw [World.joiners, hn]
    exact hx
  · have hr := hreg hw trivial
    generalize hk : WaitKind.call d = k at hr
    cases hr with
    | @call d deferred hd hl =>
      cases hk
      exact ⟨deferred, hd, h.numbered.unsettled hd hl, hl⟩
    | _ => cases hk
  · exact h.wait_of_registered ha (.call hd hl)
  · obtain ⟨t, link, kind⟩ := wait
    cases hk
    have hr := hreg hw trivial
    generalize hk : WaitKind.put = k at hr
    cases hr <;> cases hk
  · obtain ⟨deferred, hd, htm, hl⟩ := h.timed.armed hm
    obtain ⟨r, hr⟩ := Option.isSome_iff_exists.1 hl
    refine ⟨deferred, r, hd, htm, hr, fun hri => ?_⟩
    subst hri
    exact h.wait_of_registered ha (.call hd hr)

end Config.Wired

namespace Scenario

variable {s : Scenario} {w : World} {i : MiddlewareId}

/--
Between two operations from outside nothing is lost and nothing leaks: the pending effects of a
middleware that was not dropped and its registrations correspond one to one, if no two calls ever
waited for one deferred.
-/
theorem Passes.registrations_attuned (h : s.Passes World.Sole ⟨[], w⟩) (hi : w.Alive i) :
    w.Attuned i :=
  h.wired.attuned hi fun _ => h.visits.owes_nil hi.has

end Scenario

/-! ## Runs that are watched -/

/-- The calls that wait for deferreds. -/
def World.calls (w : World) : List (EffectRef × DeferredId) :=
  w.middlewares.entries.flatMap fun m => m.2.engine.waits.entries.filterMap fun e =>
    match e.2.kind with
    | .call d => some (⟨m.1, e.1⟩, d)
    | _ => none

theorem World.mem_calls {w : World} {r : EffectRef} {t : TaskId} {d : DeferredId}
    (h : w.Claims r t (.call d)) : (r, d) ∈ w.calls := by
  obtain ⟨i, x⟩ := r
  obtain ⟨-, link, hw⟩ := h
  have hm : ∃ m, w.middlewares.get? i = some m := by
    cases hm : w.middlewares.get? i with
    | some m => exact ⟨m, rfl⟩
    | none =>
      simp only [World.wait?, World.engine, hm] at hw
      cases hw
  obtain ⟨m, hm⟩ := hm
  simp only [World.wait?, World.engine_of_get? hm] at hw
  obtain ⟨e, he, rfl⟩ := Option.map_eq_some_iff.1 hm
  obtain ⟨f, hf, hfw⟩ := Option.map_eq_some_iff.1 hw
  have hei : e.1 = i := by simpa using List.find?_some he
  have hfx : f.1 = x := by simpa using List.find?_some hf
  refine List.mem_flatMap.2 ⟨e, List.mem_of_find?_eq_some he, ?_⟩
  refine List.mem_filterMap.2 ⟨f, List.mem_of_find?_eq_some hf, ?_⟩
  rw [hfw, hei, hfx]

/-- Whether no two calls wait for one deferred. -/
def World.sole? (w : World) : Bool := decide (w.calls.map Prod.snd).Nodup

theorem World.sole_of_sole? {w : World} (h : w.sole? = true) : w.Sole := by
  intro r s t u d hr hs
  have hn : (w.calls.map Prod.snd).Nodup := of_decide_eq_true h
  exact congrArg Prod.fst
    (List.inj_on_of_nodup_map hn (World.mem_calls hr) (World.mem_calls hs) rfl)

/-- Up to `n` steps, as long as the worlds on the way pass a test. -/
def Config.runWhile (p : World → Bool) : Nat → Config → Option Config
  | 0, c => some c
  | n + 1, c =>
    match c.step with
    | none => some c
    | some c => if p c.world then runWhile p n c else none

/-- The world after one operation, if all worlds on the way pass a test. -/
def Scenario.after? (s : Scenario) (p : World → Bool) (o : Op) (n : Nat) : Option World :=
  (s.setUp.toOption.filter fun w => p w && p { w with reply := none }).bind fun w =>
    ((Config.runWhile p n ⟨[.op .outside .empty o], { w with reply := none }⟩).filter
      Config.isDone).map Config.world

namespace Scenario.Passes

variable {s : Scenario} {c c' : Config} {w : World} {P : World → Prop} {p : World → Bool}

theorem runWhile (hp : ∀ w, p w = true → P w) (h : s.Passes P c) {n : Nat}
    (hr : c.runWhile p n = some c') : s.Passes P c' := by
  induction n generalizing c with
  | zero =>
    cases hr
    exact h
  | succ n ih =>
    unfold Config.runWhile at hr
    split at hr
    · cases hr
      exact h
    · split at hr
      · exact ih (h.step ‹_› (hp _ ‹_›)) hr
      · cases hr

theorem of_after? (hp : ∀ w, p w = true → P w) {o : Op} {n : Nat} (h : s.after? p o n = some w) :
    s.Passes P ⟨[], w⟩ := by
  obtain ⟨w₀, h₀, h⟩ := Option.bind_eq_some_iff.1 h
  obtain ⟨h₀, hp₀⟩ := Option.filter_eq_some_iff.1 h₀
  obtain ⟨c, hc, rfl⟩ := Option.map_eq_some_iff.1 h
  obtain ⟨hc, hd⟩ := Option.filter_eq_some_iff.1 hc
  rw [Bool.and_eq_true] at hp₀
  have hs : s.setUp = .ok w₀ := by
    cases hs : s.setUp with
    | error f =>
      rw [hs] at h₀
      cases h₀
    | ok w =>
      rw [hs] at h₀
      cases h₀
      rfl
  have h1 := ((Passes.start hs (hp _ hp₀.1)).call o w₀.budget (hp _ hp₀.2)).runWhile hp hc
  obtain ⟨todo, w⟩ := c
  cases List.isEmpty_iff.1 hd
  exact h1

end Scenario.Passes

/-- A task waits for an action, a value, the clock and its child at once. -/
def Scenario.waitsForFour : Scenario where
  channels := [("orders", .buffered .unbounded)]
  scripts := [
    ("child", [.perform (.take none (.type "go")) none none]),
    ("parent", [.perform (.fork { source := .named "child" }) (some "child") none,
      .perform (.racePositional [.take none (.type "never"), .take (some "orders") .any,
        .delay (.json (.num (.int 100))), .join (.var "child")]) none none])]
  steps := [.run 0 { source := .named "parent" } none]

theorem Scenario.registrations_attuned_waitsForFour : ∃ w,
    waitsForFour.Passes World.Sole ⟨[], w⟩ ∧ w.Alive 0 ∧ (w.engine 0).waits.size = 6 ∧
      (w.engine 0).bus.takers.length = 2 ∧ w.timers.length = 1 ∧ w.Attuned 0 := by
  have h : ((waitsForFour.after? World.sole? (.run 0 { source := .named "parent" } none) 100).any
      fun w => w.alive? 0 = some true && (w.engine 0).waits.size = 6 &&
        (w.engine 0).bus.takers.length = 2 && w.timers.length = 1) = true := by decide +kernel
  obtain ⟨w, hw, h⟩ := (Option.any_eq_true ..).1 h
  simp only [Bool.and_eq_true, decide_eq_true_eq] at h
  obtain ⟨⟨⟨ha, hsize⟩, hbus⟩, htimers⟩ := h
  have hp := Passes.of_after? (fun w => World.sole_of_sole?) hw
  exact ⟨w, hp, ha, hsize, hbus, htimers, hp.registrations_attuned ha⟩

end SagaMachine
