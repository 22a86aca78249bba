import SagaMachine.Proofs.Subscriptions
import SagaMachine.Proofs.Teardowns

/-!
# Registrations and the work of a step

While a task is stepped, effects are started, withdrawn and settled, and tasks end. Pending
effects, registrations and settlements on their way fit together afterwards, if they did before.

Main statements: `Config.Wired.execTrigger`, `Config.Wired.execBegun`, `Config.Wired.finalize`.
-/

namespace SagaMachine

/-! ## What a new taker meets -/

/-- A new taker of a channel is served at once, or takes its place in the queue. -/
theorem Channel.take_cases {κ : Type} (c : Channel κ) (p : Pattern) (sink : κ) :
    (∃ d c', c.take p sink = ⟨c.nextTaker, some d, c'⟩ ∧ c.Like c' ∧
        c'.nextTaker = c.nextTaker + 1) ∨
      c.closed = false ∧ c.take p sink = ⟨c.nextTaker, none,
        { c with
          nextTaker := c.nextTaker + 1
          takers := c.takers ++ [⟨c.nextTaker, p, sink⟩] }⟩ := by
  unfold take
  simp only
  split
  · exact Or.inl ⟨_, _, rfl, ⟨rfl, Nat.le_succ _, rfl⟩, rfl⟩
  · split
    · exact Or.inl ⟨_, _, rfl, ⟨rfl, Nat.le_succ _, rfl⟩, rfl⟩
    · rename_i hcl
      exact Or.inr ⟨by simpa using hcl, rfl⟩

/-- A new taker of the bus meets the end, or takes its place in the queue. -/
theorem Bus.take_cases (b : Bus) (t : TaskId) (p : Pattern) (x : EffectId) :
    b.take t p x = ⟨b.nextTaker, true, { b with nextTaker := b.nextTaker + 1 }⟩ ∨
      b.take t p x = ⟨b.nextTaker, false,
        { b with
          nextTaker := b.nextTaker + 1
          takers := b.takers ++ [⟨b.nextTaker, t, p, x⟩] }⟩ := by
  unfold take
  simp only
  split
  · exact Or.inl rfl
  · exact Or.inr rfl

/-! ## Instructions that play no part -/

/-- An instruction of a kind that may play a part in the settlement of effects. -/
def Instr.plays : Instr → Bool
  | .perform .. | .schedule .. | .emit .. | .forwarded .. | .deliver .. | .answer ..
  | .registered .. => true
  | _ => false

theorem Instr.Mute.of_plays {x : Instr} (h : x.plays = false) : x.Mute := by
  cases x with
  | perform | schedule | emit | forwarded | deliver | answer | registered => cases h
  | _ => exact ⟨fun _ h => h, fun _ h => h, fun _ _ h => h⟩

theorem Instr.Mute.of_all {G : List Instr} (h : (G.all fun x => !x.plays) = true) :
    ∀ x ∈ G, x.Mute := fun x hx =>
  .of_plays (by simpa using List.all_eq_true.1 h x hx)

namespace World

variable {w w' : World}

theorem has_setEngine {i j : MiddlewareId} {f : Engine → Engine} :
    (w.setEngine j f).Has i ↔ w.Has i := by
  rw [has_iff, alive_setEngine, has_iff]

theorem channels_enterNotes (w : World) (notes : List Note) :
    (w.enterNotes notes).channels = w.channels := by
  unfold enterNotes
  induction notes generalizing w with
  | nil => rfl
  | cons n notes ih => exact ih _

/-- What an instruction comes to is of no account. -/
structure Quiet (w : World) (c : Config) : Prop where
  calm : w.Calm c.world
  mute : (c.todo.all fun x => !x.plays) = true

namespace Quiet

variable {turn : Turn} {s : ScriptBody} {m : Mailbox Effect}

theorem of_calm (h : w.Calm w') {G : List Instr} (hG : (G.all fun x => !x.plays) = true) :
    w.Quiet ⟨G, w'⟩ := ⟨h, hG⟩

theorem finishScript (h : w.Calm w') (a : Answer) : w.Quiet (w'.finishScript turn s a) :=
  of_calm h rfl

theorem raise (h : w.Calm w') (f : Fault) : w.Quiet (w'.raise turn s m f) := by
  unfold World.raise
  split
  · exact of_calm h rfl
  · exact finishScript h _

theorem awaitAll (h : w.Calm w') (p : Pause) : w.Quiet (w'.awaitAll turn s m p) := by
  unfold World.awaitAll
  simp only
  split
  · unfold World.resumeScript
    split
    · exact of_calm (h.trans (.register _ _)) rfl
    · exact raise h _
    · exact of_calm h rfl
    · exact of_calm (h.trans (.enter _)) rfl
  · exact of_calm h rfl

theorem withEffects {α : Type} (h : w.Calm w') (built : Except Fault α) {next : α → Config}
    (hn : ∀ a, w.Quiet (next a)) : w.Quiet (w'.withEffects turn s m built next) := by
  unfold World.withEffects
  split
  · exact hn _
  · exact raise h _

theorem execStmt (h : w.Calm w') (stmt : Stmt) : w.Quiet (w'.execStmt turn s m stmt) := by
  cases stmt with
  | perform effect name label => exact withEffects h _ fun e => awaitAll h _
  | assign name x label => exact of_calm (h.trans (.register _ _)) rfl
  | log tag x => exact of_calm (h.trans (.enter _)) rfl
  | guard name ops => exact of_calm h rfl
  | «return» x => exact finishScript h _
  | fail f => exact raise h f
  | attempt body handler => exact of_calm h rfl
  | rethrow => exact raise h _
  | ifThen test yes no => exact of_calm h rfl
  | «repeat» times body => exact of_calm h rfl
  | ops os => exact of_calm h rfl
  | foreign => exact awaitAll h { awaiting := [.foreign], resumption := .report }
  | joined effects => exact withEffects h _ fun es => awaitAll h _
  | mixed effect => exact withEffects h _ fun e => awaitAll h _
  | describe effect => exact withEffects h _ fun e => of_calm (h.trans (.enter _)) rfl
  | unknown name => exact raise h _

theorem execAdvance {c : Config} (hc : w.execAdvance turn s m = some c) : w.Quiet c := by
  unfold World.execAdvance at hc
  split at hc
  · cases hc
    exact finishScript (.refl w) _
  · cases hc
    exact of_calm (.refl w) rfl
  · obtain ⟨w', hs, rfl⟩ := Option.map_eq_some_iff.1 hc
    exact execStmt (.spend hs) _
  · cases hc
    exact of_calm (.refl w) rfl
  · cases hc
    exact of_calm (.refl w) rfl
  · obtain ⟨w', hs, rfl⟩ := Option.map_eq_some_iff.1 hc
    exact of_calm (.spend hs) rfl

theorem execPoll (body : Body) (a : Option Answer) : w.Quiet (w.execPoll turn body a) := by
  unfold World.execPoll
  split
  · exact of_calm (.record _) rfl
  · split
    · exact of_calm (.record _) rfl
    · exact awaitAll (.record _) _

theorem execPolled (body : Body) (step : Step Effect) : w.Quiet (w.execPolled turn body step) := by
  unfold World.execPolled
  split
  · exact of_calm (.refl w) rfl
  · split <;> exact of_calm (.refl w) rfl

theorem beginTurn (i : MiddlewareId) (t : TaskId) (expected : Option EffectId)
    (signal : Option Signal) : w.Quiet (w.beginTurn i t expected signal) := by
  unfold World.beginTurn
  split
  · exact of_calm (.refl w) rfl
  · split
    · exact of_calm (.refl w) rfl
    · split
      · exact of_calm (.refl w) rfl
      · rename_i n _ _ b _
        have h : w.Calm ((w.setTask i t fun n => { n with body := none, status := .running }).setEngine
            i fun e => { e with current := some t }) :=
          (Calm.setTask (t := t) (f := fun n => { n with body := none, status := .running })
            fun _ => rfl).trans (.setEngine' rfl rfl rfl Iff.rfl)
        simp only
        split <;> exact of_calm h rfl

theorem enterDriver (h : w.Calm w') (i : MiddlewareId) (work : List Instr)
    (hG : (work.all fun x => !x.plays) = true) : w.Quiet (w'.enterDriver i work) := by
  unfold World.enterDriver
  split
  · exact of_calm h hG
  · refine of_calm (h.trans (.setEngine' rfl rfl rfl Iff.rfl)) ?_
    rw [List.all_append, hG]
    rfl

end Quiet

end World

namespace Config.Wired

variable {A : Prop} {w : World} {F : List Instr} {i : MiddlewareId} {x : EffectId}

theorem quiet (h : Wired A ⟨F, w⟩) {c : Config} (hc : w.Quiet c) : Wired A (c.followedBy F) :=
  (h.calm hc.calm).mute (.of_all hc.mute)

/-! ## The driver -/

/-- A settlement from outside the driver. -/
theorem notify {r : EffectRef} {signal : Signal}
    (h : Wired A ⟨.schedule r.mw (.settle r.effect signal) :: F, w⟩) :
    Wired A ((w.notify r signal).followedBy F) := by
  unfold World.notify
  cases hl : w.living? r.mw with
  | none =>
    refine h.tail fun s ha hs => ?_
    have hsr : s = r := hs
    rw [hsr] at ha
    obtain ⟨m, hm, hal⟩ := Option.map_eq_some_iff.1 (show (w.middlewares.get? r.mw).map (·.alive) = some true from ha)
    simp [World.living?, hm, hal] at hl
  | some m => exact h.schedule.quiet (.enterDriver (.refl _) _ _ rfl)

theorem putChannel_fst {c : ChannelId} {channel : Channel Sink} {v : Value} :
    (w.putChannel c channel v).1 = (channel.put v).1 := by
  unfold World.putChannel
  simp only
  split <;> rfl

theorem putChannel_snd {c : ChannelId} {channel : Channel Sink} {v : Value} :
    (w.putChannel c channel v).2 =
        { w.enterNotes (channel.putNotes v) with
          channels := w.channels.insert c (channel.put v).2 } ∨
      (w.putChannel c channel v).2 =
        { w.enterNotes (channel.putNotes v) with
          channels := w.channels.insert c (channel.put v).2 }.enter (.accepted c v) := by
  have hch := World.channels_enterNotes w (channel.putNotes v)
  unfold World.putChannel
  simp only [hch]
  split
  · exact Or.inl rfl
  · exact Or.inl rfl
  · exact Or.inr rfl
  · exact Or.inr rfl

/-- A value is put on a channel that no taker waits on. -/
theorem putChannel_kept (h : Wired A ⟨F, w⟩) {c : ChannelId} {channel : Channel Sink} {v : Value}
    (hc : w.channels.get? c = some channel) (hd : ∀ t, (w.putChannel c channel v).1 ≠ .delivered t) :
    Wired A ⟨F, (w.putChannel c channel v).2⟩ := by
  have hl : channel.Like (channel.put v).2 := by
    rw [putChannel_fst] at hd
    unfold Channel.put at hd ⊢
    split
    · exact .refl channel
    · rename_i hcl
      simp only [hcl] at hd
      split
      · rename_i t rest hr
        simp only [hr] at hd
        exact absurd rfl (hd t)
      · split
        · exact ⟨rfl, Nat.le_refl _, rfl⟩
        · exact .refl channel
  have hch := World.channels_enterNotes w (channel.putNotes v)
  have hc' : (w.enterNotes (channel.putNotes v)).channels.get? c = some channel := by rw [hch, hc]
  have h1 := (h.calm (.enterNotes (channel.putNotes v))).calm (.setChannel hc' hl)
  rw [hch] at h1
  rcases putChannel_snd (w := w) (c := c) (v := v) with he | he
  · rw [he]
    exact h1
  · rw [he]
    exact h1.calm (.enter _)

/-- A value is put on a channel, and a taker gets it. -/
theorem putChannel_delivered (h : Wired A ⟨F, w⟩) {c : ChannelId} {channel : Channel Sink}
    {v : Value} (hc : w.channels.get? c = some channel) {t : Taker Sink}
    (hd : (w.putChannel c channel v).1 = .delivered t) :
    Wired A ⟨.deliver t.sink (.value v) :: F, (w.putChannel c channel v).2⟩ := by
  obtain ⟨rest, hr, hput⟩ : ∃ rest, Channel.removeTaker v channel.takers = some (t, rest) ∧
      (channel.put v).2 = { channel with takers := rest } := by
    rw [putChannel_fst] at hd
    unfold Channel.put at hd ⊢
    split at hd
    · cases hd
    · rename_i hcl
      simp only [hcl]
      split at hd
      · rename_i t' rest hr
        cases hd
        exact ⟨rest, hr, by simp⟩
      · split at hd <;> cases hd
  have hch := World.channels_enterNotes w (channel.putNotes v)
  have hc' : (w.enterNotes (channel.putNotes v)).channels.get? c = some channel := by rw [hch, hc]
  have h1 := (h.calm (.enterNotes (channel.putNotes v))).releaseChannel hc' [t]
    (channel.put v).2 (by rw [hput]; exact Channel.removeTaker_perm hr)
    (by
      rw [hput]
      exact ⟨Channel.removeTaker_sublist hr, Nat.le_refl _, Or.inl⟩) (.value v)
  rw [hch] at h1
  rcases putChannel_snd (w := w) (c := c) (v := v) with he | he
  · rw [he]
    exact h1
  · rw [he]
    exact h1.calm (.enter _)

/-- A put that an effect asked for. -/
theorem putForEffect (h : ∀ signal, Wired A ⟨.schedule i (.settle x signal) :: F, w⟩)
    (c : ChannelId) (v : Value) : Wired A ((w.putForEffect i c v x).followedBy F) := by
  unfold World.putForEffect
  split
  · exact (h _).schedule
  · rename_i channel hc
    simp only
    split
    · rename_i hp
      exact ((h _).putChannel_kept hc (fun t ht => by rw [hp] at ht; cases ht)).schedule
    · rename_i t hp
      exact (h _).putChannel_delivered hc hp
    · rename_i result hp
      exact ((h _).putChannel_kept hc (fun t ht => by rw [hp] at ht; cases ht)).schedule

theorem broadcast (h : Wired A ⟨F, w⟩) (hi : w.Has i) (a : Action) :
    Wired A ⟨F, w.broadcast i a⟩ := by
  have h1 := h.releaseBus hi ((w.engine i).bus.broadcast a).woken
    { (w.engine i).bus with takers := ((w.engine i).bus.broadcast a).kept }
    (Bus.select_perm _ _ _) (Bus.kept_sublist _ _ _) rfl
    (f := fun e => { e with bus := { e.bus with takers := ((w.engine i).bus.broadcast a).kept } })
    rfl rfl rfl rfl (.value (.action a))
  exact (h1.calm (.enterNotes _)).foldl_schedule

theorem endBus (h : Wired A ⟨F, w⟩) (hi : w.Has i) : Wired A ⟨F, w.endBus i⟩ := by
  have h1 := h.releaseBus hi (w.engine i).bus.takers
    ((w.engine i).bus.finish (w.engine i).nextTask).2 (by simp [Bus.finish])
    (List.nil_sublist _) rfl
    (f := fun e => { e with bus := ((w.engine i).bus.finish (w.engine i).nextTask).2 })
    rfl rfl rfl rfl .ended
  exact (h1.calm (.record _)).foldl_schedule

theorem finalize (h : Wired A ⟨F, w⟩) (hi : w.Has i) (t : TaskId) (outcome : Outcome) :
    Wired A ⟨F, (w.finalize i t outcome).2⟩ := by
  cases hn : w.task? i t with
  | none =>
    rw [World.finalize_of_absent hn]
    exact h
  | some n =>
    have h1 : Wired A ⟨F, w.announce i t n outcome⟩ := by
      have h2 := h.releaseJoiners hi hn
        (f := fun e => { e with tasks := e.tasks.erase t, outcomes := e.outcomes.insert t outcome })
        rfl rfl rfl rfl (.ofOutcome outcome)
      have hwoken (v : World) : v.Calm (v.wakeWatches { owner := i, id := t, name := n.name }) :=
        .of_eq rfl rfl rfl rfl rfl rfl rfl rfl
      have h3 := h2.calm (hwoken _)
      exact h3.foldl_schedule.calm (.record _)
    rw [World.finalize_eq hn]
    simp only
    split
    · split
      · exact h1
      · split
        · exact h1
        · split
          · exact h1.calm (.setTask fun _ => rfl)
          · split <;> exact h1.calm (.setTask fun _ => rfl)
    · split
      · exact h1.calm (.record _)
      · exact h1

theorem cascadeOn {r : Option Cascade × World} (h : Wired A ⟨F, r.2⟩) :
    Wired A ((World.cascadeOn i r).followedBy F) := by
  unfold World.cascadeOn
  split
  · exact h
  · exact h.quiet (.of_calm (.refl _) rfl)

/-! ## Starting effects -/

section Start

variable {turn : Turn} {body : Body} {nests : List Nest}

theorem new_calm {w' : World} {r : EffectRef} (hnew : New ⟨F, w⟩ r) (hc : w.Calm w') :
    New ⟨F, w'⟩ r where
  claims t k h := hnew.claims t k (hc.claims.1 h)
  owes h := hnew.owes (by simpa only [Owes, hc.owes] using h)
  makes h := hnew.makes h

theorem immediate (h : Wired A ⟨F, w⟩) (signal : Signal) :
    Wired A ((w.immediate turn body nests x signal).followedBy F) :=
  h.quiet (.of_calm (.record _) rfl)

theorem startTake (h : Wired A ⟨F, w⟩) (ha : w.Alive turn.mw) (hnew : New ⟨F, w⟩ ⟨turn.mw, x⟩)
    (source : Source) (p : Pattern) :
    Wired A ((w.startTake turn body nests x source p).followedBy F) := by
  unfold World.startTake
  cases source with
  | bus =>
    simp only
    rcases Bus.take_cases (w.engine turn.mw).bus turn.task p x with hr | hr
    · rw [hr]
      exact immediate (h.calm (.setEngine (fun _ => Iff.rfl) rfl (Nat.le_succ _) (fun _ => rfl)
        Iff.rfl)) _
    · rw [hr]
      have h1 := h.claimBus ha hnew
        { (w.engine turn.mw).bus with
          nextTaker := (w.engine turn.mw).bus.nextTaker + 1
          takers := (w.engine turn.mw).bus.takers ++
            [⟨(w.engine turn.mw).bus.nextTaker, turn.task, p, x⟩] }
        (b := ⟨(w.engine turn.mw).bus.nextTaker, turn.task, p, x⟩) rfl rfl rfl rfl rfl (Nest.link nests)
      exact h1.cons (.of_plays rfl)
  | channel c =>
    simp only
    split
    · exact immediate h _
    · rename_i channel hc
      have hch := World.channels_enterNotes w (channel.takeNotes p)
      have hc' : (w.enterNotes (channel.takeNotes p)).channels.get? c = some channel := by
        rw [hch, hc]
      have hcalm : w.Calm (w.enterNotes (channel.takeNotes p)) := .enterNotes _
      simp only [World.takeChannel]
      rcases channel.take_cases p (.effect ⟨turn.mw, x⟩) with ⟨d, channel', hr, hl, -⟩ | ⟨hcl, hr⟩
      · rw [hr]
        exact immediate ((h.calm hcalm).calm (.setChannel hc' hl)) _
      · rw [hr]
        have ha' : (w.enterNotes (channel.takeNotes p)).Alive turn.mw := hcalm.alive_iff.2 ha
        have h1 := (h.calm hcalm).claimChannel ha' (new_calm hnew hcalm) hc'
          { channel with
            nextTaker := channel.nextTaker + 1
            takers := channel.takers ++ [⟨channel.nextTaker, p, .effect ⟨turn.mw, x⟩⟩] }
          (b := ⟨channel.nextTaker, p, .effect ⟨turn.mw, x⟩⟩) rfl rfl rfl hcl rfl (t := turn.task)
          (Nest.link nests)
        exact h1.cons (.of_plays rfl)

/-- The errand of a put. -/
theorem startPut (h : Wired A ⟨F, w⟩) (ha : w.Alive turn.mw) (hnew : New ⟨F, w⟩ ⟨turn.mw, x⟩)
    (target : Target) : Wired A ((w.startPut turn body nests x target).followedBy F) := by
  have key : ∀ e : Errand, e.reply? = some x →
      Wired A ⟨F, (w.insertWait turn.mw x ⟨turn.task, Nest.link nests, .put⟩).queue turn.mw e⟩ := by
    intro e he
    have claims : ∀ {s u l}, (w.insertWait turn.mw x ⟨turn.task, Nest.link nests, .put⟩).Claims s u l →
        s = ⟨turn.mw, x⟩ ∧ u = turn.task ∧ l = .put ∨ w.Claims s u l :=
      (claims_suspend (k := .put) ha hnew trivial).1
    refine (h.suspend ha hnew (k := .put) (y := .perform turn.mw (.errand e)) (fun r => ?_) (fun _ h => h)
      (fun _ _ h => h) trivial (fun _ _ h => by cases h)
      (h.sole_of_claims (fun d hd => by cases hd) claims)).queue
    simp only [Instr.Settles, he, Option.some.injEq, exists_eq_left']
  unfold World.startPut
  cases target with
  | bus a => exact (key (.dispatch a (some x)) rfl).cons (.of_plays rfl)
  | channel c v => exact (key (.put c v x) rfl).cons (.of_plays rfl)

/-- An effect waits for a deferred that there is. -/
theorem awaitDeferred (h : Wired A ⟨F, w⟩) (ha : w.Alive turn.mw) (hnew : New ⟨F, w⟩ ⟨turn.mw, x⟩)
    {d : DeferredId} (deferred : Deferred EffectRef) (hd : w.deferreds.get? d = some deferred)
    (hs : A → (w.awaitDeferred turn body nests x d).world.Sole) :
    Wired A ((w.awaitDeferred turn body nests x d).followedBy F) := by
  have hd' : (w.insertWait turn.mw x ⟨turn.task, Nest.link nests, .call d⟩).deferreds.get? d =
      some deferred := hd
  unfold World.awaitDeferred at hs ⊢
  simp only [World.suspend, hd'] at hs ⊢
  unfold Deferred.subscribe at hs ⊢
  cases ho : deferred.outcome with
  | some a =>
    simp only [ho] at hs ⊢
    set w₂ := w.insertWait turn.mw x ⟨turn.task, Nest.link nests, .call d⟩ with hw₂
    have hcalm : w₂.Calm { w₂ with deferreds := w₂.deferreds.insert d deferred } := .setDeferred hd'
    have hsole : A → w₂.Sole := fun hA r s t u e h1 h2 => by
      have hm : ∀ {r t k}, w₂.Claims r t k → World.Claims ({ w₂ with
          deferreds := w₂.deferreds.insert d deferred }.schedule turn.mw
            (.settle x (.ofAnswer a))) r t k := by
        intro r t k hc
        refine (World.claims_congr ?_).2 (hcalm.claims.2 hc)
        rcases World.engine_setEngine_or { w₂ with deferreds := w₂.deferreds.insert d deferred } r.mw
          turn.mw (fun e => { e with agenda := e.agenda.schedule (.settle x (.ofAnswer a)) }) with
            he | ⟨-, -, he⟩
        · simp only [World.wait?, World.schedule, he]
        · simp only [World.wait?, World.schedule, he]
      exact hs hA (hm h1) (hm h2)
    have h1 := h.suspend ha hnew (t := turn.task) (k := .call d)
      (y := .schedule turn.mw (.settle x (.ofAnswer a))) (fun r => Iff.rfl) (fun _ h => h)
      (fun _ _ h => h) trivial (fun _ _ h => by cases h) hsole
    exact (h1.calm hcalm).schedule.cons (.of_plays rfl)
  | none =>
    simp only [ho] at hs ⊢
    have hget : ∀ {e}, e ≠ d →
        (w.deferreds.insert d ⟨none, some ⟨turn.mw, x⟩, deferred.timer⟩).get? e =
          w.deferreds.get? e := fun hed => by rw [Table.get?_insert, if_neg hed]
    have hgetd : (w.deferreds.insert d ⟨none, some ⟨turn.mw, x⟩, deferred.timer⟩).get? d =
        some ⟨none, some ⟨turn.mw, x⟩, deferred.timer⟩ := by simp
    refine Wired.cons (h.listen ha hnew (t := turn.task) rfl rfl rfl hgetd rfl
      rfl hget ⟨fun hm => ?_, fun he hid => ?_, fun he => ?_, fun hn => ?_⟩ hs) (.of_plays rfl)
    · obtain ⟨deferred', he, h1, h2⟩ := h.timed.armed hm
      rename_i t
      by_cases hed : t.deferred = d
      · rw [hed] at he ⊢
        cases hd.symm.trans he
        exact ⟨_, hgetd, h1, rfl⟩
      · exact ⟨deferred', (hget hed).trans he, h1, h2⟩
    · rename_i e deferred' id
      by_cases hed : e = d
      · subst hed
        cases hgetd.symm.trans he
        exact h.timed.timer hd hid
      · exact h.timed.timer ((hget hed).symm.trans he) hid
    · rename_i e deferred'
      by_cases hed : e = d
      · subst hed
        exact h.timed.next hd
      · exact h.timed.next ((hget hed).symm.trans he)
    · rename_i name e
      obtain ⟨deferred', he, htm⟩ := h.timed.named hn
      by_cases hed : e = d
      · subst hed
        cases hd.symm.trans he
        exact ⟨_, hgetd, htm⟩
      · exact ⟨deferred', (hget hed).trans he, htm⟩

/-- A deferred comes in that nobody listens to and no timer stands behind. -/
theorem addDeferred (h : Wired A ⟨F, w⟩) {deferred : Deferred EffectRef}
    (hl : deferred.listener = none) (htm : deferred.timer = none) :
    Wired A ⟨F, (w.addDeferred deferred).2⟩ := by
  have hget : ∀ {e deferred'}, (w.deferreds.insert w.nextDeferred deferred).get? e = some deferred' →
      e = w.nextDeferred ∧ deferred' = deferred ∨ w.deferreds.get? e = some deferred' := by
    intro e deferred' he
    rw [Table.get?_insert] at he
    split at he
    · rename_i hed
      cases he
      exact Or.inl ⟨hed, rfl⟩
    · exact Or.inr he
  have hold : ∀ {e deferred'}, w.deferreds.get? e = some deferred' →
      (w.deferreds.insert w.nextDeferred deferred).get? e = some deferred' := by
    intro e deferred' he
    rw [Table.get?_insert, if_neg]
    · exact he
    · rintro rfl
      exact Nat.lt_irrefl _ (h.timed.next he)
  have hs : w.Shrinks (w.addDeferred deferred).2 := by
    refine ⟨fun ha => ha, fun hc => hc.of_middlewares rfl, fun _ => .refl _, fun _ => Nat.le_refl _,
      fun _ _ => .refl _, fun _ => Option.Rel.refl .refl _, fun he hr => ?_, rfl⟩
    rcases hget he with ⟨-, rfl⟩ | he
    · rw [hl] at hr
      cases hr
    · exact ⟨_, he, hr, rfl⟩
  refine h.shrink hs ⟨fun hm => ?_, fun he hid => ?_, fun he => ?_, fun hn => ?_⟩
    (fun y hy d id ht => ⟨y, hy, ht⟩) (fun _ _ hc => hc.of_middlewares rfl) (fun _ _ h => h)
    (fun _ hm => ⟨hm, id⟩) fun {r t k} _ _ _ hreg => hreg.imp_left fun hr => ?_
  · obtain ⟨deferred', he, h1, h2⟩ := h.timed.armed hm
    exact ⟨deferred', hold he, h1, h2⟩
  · rcases hget he with ⟨-, rfl⟩ | he
    · rw [htm] at hid
      cases hid
    · exact h.timed.timer he hid
  · rcases hget he with ⟨rfl, -⟩ | he
    · exact Nat.lt_succ_self _
    · exact Nat.lt_succ_of_lt (h.timed.next he)
  · obtain ⟨deferred', he, h1⟩ := h.timed.named hn
    exact ⟨deferred', hold he, h1⟩
  · cases hr with
    | bus ht he => exact .bus ht he
    | channel hc ht hsink => exact .channel hc ht hsink
    | call he hl' => exact .call (hold he) hl'
    | join hj => exact .join hj

theorem new_addDeferred {r : EffectRef} (hnew : New ⟨F, w⟩ r) (deferred : Deferred EffectRef) :
    New ⟨F, (w.addDeferred deferred).2⟩ r where
  claims t k hc := hnew.claims t k (hc.of_middlewares rfl)
  owes := hnew.owes
  makes := hnew.makes

/-- An effect waits for a deferred that is settled from the start. -/
theorem awaitSettled (h : Wired A ⟨F, w⟩) (ha : w.Alive turn.mw) (hnew : New ⟨F, w⟩ ⟨turn.mw, x⟩)
    (a : Answer) (hs : A → ((w.addDeferred (.settled a)).2.awaitDeferred turn body nests x
      (w.addDeferred (.settled a)).1).world.Sole) :
    Wired A (((w.addDeferred (.settled a)).2.awaitDeferred turn body nests x
      (w.addDeferred (.settled a)).1).followedBy F) := by
  have h1 : Wired A ⟨F, (w.addDeferred (.settled a)).2⟩ := h.addDeferred rfl rfl
  exact h1.awaitDeferred ha (new_addDeferred hnew _) (.settled a)
    (by simp [World.addDeferred]) hs

/-- An effect waits for a timer; where no timer can run it is told at once. -/
theorem awaitTimer (h : Wired A ⟨F, w⟩) (ha : w.Alive turn.mw) (hnew : New ⟨F, w⟩ ⟨turn.mw, x⟩)
    (ms : Nat) (a : Answer) (hs : A → ((w.addTimer ms a).2.awaitDeferred turn body nests x
      (w.addTimer ms a).1).world.Sole) :
    Wired A (((w.addTimer ms a).2.awaitDeferred turn body nests x
      (w.addTimer ms a).1).followedBy F) := by
  cases hsup : w.timerSupport with
  | absent =>
    have heq : w.addTimer ms a = w.addDeferred (.settled (.error .noTimers)) := by
      simp [World.addTimer, hsup]
    rw [heq] at hs ⊢
    exact h.awaitSettled ha hnew _ hs
  | refused =>
    have heq : w.addTimer ms a =
        (w.enter .timersUnavailable).addDeferred (.settled (.error .noTimers)) := by
      simp [World.addTimer, hsup]
    rw [heq] at hs ⊢
    have hc : w.Calm (w.enter .timersUnavailable) := .enter _
    exact (h.calm hc).awaitSettled (hc.alive_iff.2 ha) (new_calm hnew hc) _ hs
  | available =>
    set timer : Timer := ⟨w.nextTimer, w.now + ms, w.nextDeferred, a⟩ with htimer
    set D := (w.deferreds.insert w.nextDeferred ⟨none, none, some w.nextTimer⟩).insert w.nextDeferred
      ⟨none, some ⟨turn.mw, x⟩, some w.nextTimer⟩ with hD
    have hgetd : D.get? w.nextDeferred = some ⟨none, some ⟨turn.mw, x⟩, some w.nextTimer⟩ := by
      simp [hD]
    have hget : ∀ {e}, e ≠ w.nextDeferred → D.get? e = w.deferreds.get? e := fun he => by
      simp [hD, he]
    have hlt : ∀ {e deferred}, w.deferreds.get? e = some deferred → e ≠ w.nextDeferred :=
      fun he hed => Nat.lt_irrefl _ (hed ▸ h.timed.next he)
    have heq : ((w.addTimer ms a).2.awaitDeferred turn body nests x (w.addTimer ms a).1) =
        ⟨[.begun turn body nests (.pending x)],
          { w.insertWait turn.mw x ⟨turn.task, Nest.link nests, .call w.nextDeferred⟩ with
            deferreds := D
            timers := w.timers ++ [timer]
            nextDeferred := w.nextDeferred + 1
            nextTimer := w.nextTimer + 1 }⟩ := by
      have hw₁ : (w.deferreds.insert w.nextDeferred ⟨none, none, some w.nextTimer⟩).get?
          w.nextDeferred = some ⟨none, none, some w.nextTimer⟩ := by simp
      simp only [World.addTimer, hsup, World.addDeferred, World.awaitDeferred, World.suspend,
        World.insertWait, World.setEngine, hw₁, Deferred.subscribe]
      rfl
    rw [heq] at hs ⊢
    refine Wired.cons (h.listen ha hnew (t := turn.task)
      (d := w.nextDeferred) rfl rfl rfl hgetd rfl rfl hget
      ⟨fun hm => ?_, fun he hid => ?_, fun he => ?_, fun hn => ?_⟩ hs) (.of_plays rfl)
    · rcases List.mem_append.1 hm with hm | hm
      · obtain ⟨deferred, he, h1, h2⟩ := h.timed.armed hm
        exact ⟨deferred, (hget (hlt he)).trans he, h1, h2⟩
      · rw [List.mem_singleton.1 hm]
        exact ⟨_, hgetd, rfl, rfl⟩
    · rename_i e deferred id
      by_cases hed : e = w.nextDeferred
      · subst hed
        cases hgetd.symm.trans he
        cases hid
        refine ⟨Nat.lt_succ_self _, fun t hm hid => ?_⟩
        rcases List.mem_append.1 hm with hm | hm
        · obtain ⟨deferred, he, h1, -⟩ := h.timed.armed hm
          have hlt' := (h.timed.timer he h1).1
          rw [hid] at hlt'
          exact absurd hlt' (Nat.lt_irrefl _)
        · rw [List.mem_singleton.1 hm]
      · obtain ⟨h1, h2⟩ := h.timed.timer ((hget hed).symm.trans he) hid
        refine ⟨Nat.lt_succ_of_lt h1, fun t hm hid' => ?_⟩
        rcases List.mem_append.1 hm with hm | hm
        · exact h2 t hm hid'
        · rw [List.mem_singleton.1 hm] at hid'
          exact absurd (show w.nextTimer = id from hid') (Nat.ne_of_gt h1)
    · rename_i e deferred
      by_cases hed : e = w.nextDeferred
      · rw [hed]
        exact Nat.lt_succ_self _
      · exact Nat.lt_succ_of_lt (h.timed.next ((hget hed).symm.trans he))
    · obtain ⟨deferred, he, h1⟩ := h.timed.named hn
      exact ⟨deferred, (hget (hlt he)).trans he, h1⟩

/-- The function that an effect calls is at work. -/
theorem make (h : Wired A ⟨F, w⟩) {r : EffectRef} (hnew : New ⟨F, w⟩ r) {y : Instr}
    (hy : ∀ s, y.Makes s ↔ s = r) (hys : ∀ s, ¬ y.Settles s) (hyt : ∀ c id, ¬ y.Tags c id) :
    Wired A ⟨y :: F, w⟩ := by
  have ho : ∀ {s}, Owes ⟨y :: F, w⟩ s ↔ Owes ⟨F, w⟩ s := fun {s} =>
    owes_cons.trans (or_iff_right (hys s))
  refine ⟨h.numbered, h.timed, fun {d id} hd => h.tagged ?_, h.sole, fun {s} ha => ?_⟩
  · refine hd.imp_right ?_
    rintro ⟨z, hz, hzt⟩
    rcases List.mem_cons.1 hz with rfl | hz
    · exact absurd hzt (hyt d id)
    · exact ⟨z, hz, hzt⟩
  · have hf := h.fits ha
    refine ⟨hf.backed, fun hr => by rw [ho]; exact hf.silent hr, ?_,
      fun hA hc => by rw [ho]; exact hf.served hA hc⟩
    rintro ⟨z, hz, hm⟩
    rw [ho]
    rcases List.mem_cons.1 hz with rfl | hz
    · rw [(hy s).1 hm]
      exact ⟨hnew.claims, hnew.owes⟩
    · exact hf.making ⟨z, hz, hm⟩

/-- The function that an effect calls has done its work. -/
theorem made {y : Instr} (h : Wired A ⟨y :: F, w⟩) (hys : ∀ s, ¬ y.Settles s) {r : EffectRef}
    (ha : w.Alive r.mw) (hy : y.Makes r) (hone : ∀ z ∈ F, ¬ z.Makes r) :
    Wired A ⟨F, w⟩ ∧ New ⟨F, w⟩ r := by
  obtain ⟨h1, h2⟩ := (h.fits ha).making ⟨y, List.mem_cons_self, hy⟩
  refine ⟨h.tail fun s _ => hys s, h1, fun ho => h2 (owes_cons.2 (Or.inr ho)), ?_⟩
  rintro ⟨z, hz, hm⟩
  exact hone z hz hm

theorem startCall (h : Wired A ⟨F, w⟩) (ha : w.Alive turn.mw) (hnew : New ⟨F, w⟩ ⟨turn.mw, x⟩)
    (routine : Routine) (hs : A → (w.startCall turn body nests x routine).world.Sole) :
    Wired A ((w.startCall turn body nests x routine).followedBy F) := by
  unfold World.startCall at hs ⊢
  cases routine with
  | sleep ms => exact h.awaitTimer ha hnew ms _ hs
  | scripted c env =>
    have hc : w.Calm (c.label.elim w fun name => w.enter (.call name)) := by
      cases c.label with
      | none => exact .refl w
      | some name => exact .enter _
    exact ((h.calm hc).make (new_calm hnew hc) (y := .answer turn body nests x c.answer env)
      (fun _ => Iff.rfl) (fun _ h => h) (fun _ _ h => h)).cons (.of_plays rfl)

theorem execAnswer (h : Wired A ⟨F, w⟩) (ha : w.Alive turn.mw) (hnew : New ⟨F, w⟩ ⟨turn.mw, x⟩)
    (result : AnswerExpr) (env : Env)
    (hs : A → (w.execAnswer turn body nests x result env).world.Sole) :
    Wired A ((w.execAnswer turn body nests x result env).followedBy F) := by
  unfold World.execAnswer at hs ⊢
  cases result with
  | value e => exact h.immediate _
  | fault f => exact h.immediate _
  | deferred name =>
    simp only at hs ⊢
    cases hn : w.deferredNames.get? name with
    | none =>
      simp only
      exact h.immediate _
    | some d =>
      simp only [hn] at hs ⊢
      obtain ⟨deferred, hd, -⟩ := h.timed.named hn
      exact h.awaitDeferred ha hnew _ hd hs
  | resolved e => exact h.awaitSettled ha hnew _ hs
  | rejected f => exact h.awaitSettled ha hnew _ hs
  | timer ms fault e => exact h.awaitTimer ha hnew ms _ hs

theorem startFork (h : Wired A ⟨F, w⟩) (hn : w.task? turn.mw (w.engine turn.mw).nextTask = none)
    (saga : Saga) (detached : Bool) :
    Wired A ((w.startFork turn body nests x saga detached).followedBy F) := by
  unfold World.startFork
  exact ((h.calm (.createTask saga (some turn.task) detached hn)).calm
    (.schedule fun y signal hy => by cases hy)).immediate _

theorem startJoin (h : Wired A ⟨F, w⟩) (ha : w.Alive turn.mw) (hnew : New ⟨F, w⟩ ⟨turn.mw, x⟩)
    (hlast : ∀ u, ∀ y ∈ w.joiners turn.mw u, y < x) (target : TaskRef) : Wired A ((w.startJoin turn body nests x target).followedBy F) := by
  unfold World.startJoin
  split
  · exact h.immediate _
  · split
    · exact h.immediate _
    · split
      · exact h.immediate _
      · split
        · exact h.immediate _
        · rename_i n hn
          exact (h.claimJoin ha hnew hlast hn (t := turn.task) (Nest.link nests)).cons (.of_plays rfl)

/-- A combinator comes into the wait table. -/
theorem insertCombinator (h : Wired A ⟨F, w⟩) (hnew : New ⟨F, w⟩ ⟨i, x⟩)
    {wait : Wait} (hk : ¬ wait.kind.IsLeaf) : Wired A ⟨F, w.insertWait i x wait⟩ := by
  refine h.calm (.setEngine (fun {y t link k} hl => ?_) rfl (Nat.le_refl _) (fun _ => rfl) Iff.rfl)
  rw [Table.get?_insert]
  split
  · rename_i hyx
    subst hyx
    constructor
    · rintro ⟨⟩
      exact absurd hl hk
    · intro hy
      exact absurd ⟨hl, link, hy⟩ (hnew.claims t k)
  · exact Iff.rfl

theorem startRace (h : Wired A ⟨F, w⟩) (hnew : New ⟨F, w⟩ ⟨turn.mw, x⟩)
    (keys : Option (List String)) (members : List Effect) :
    Wired A ((w.startRace turn body nests x keys members).followedBy F) := by
  unfold World.startRace
  split
  · exact h.immediate _
  · exact (h.insertCombinator hnew id).cons (.of_plays rfl)

theorem startAll (h : Wired A ⟨F, w⟩) (hnew : New ⟨F, w⟩ ⟨turn.mw, x⟩)
    (members : List Effect) : Wired A ((w.startAll turn body nests x members).followedBy F) := by
  unfold World.startAll
  split
  · exact h.immediate _
  · exact (h.insertCombinator hnew id).cons (.of_plays rfl)

theorem startCancel (h : Wired A ⟨F, w⟩) (target : Option TaskRef) :
    Wired A ((w.startCancel turn body nests x target).followedBy F) := by
  unfold World.startCancel
  split
  · exact h.quiet (.of_calm (.refl _) rfl)
  · split
    · exact h.immediate _
    · exact h.quiet (.of_calm (.refl _) rfl)

/-- An effect is started under a number that nothing is known of yet. -/
theorem execTrigger (h : Wired A ⟨F, w⟩) (ha : w.Alive turn.mw)
    (hnew : New ⟨F, w⟩ ⟨turn.mw, (w.engine turn.mw).nextEffect⟩)
    (hlast : ∀ u, ∀ y ∈ w.joiners turn.mw u, y < (w.engine turn.mw).nextEffect)
    (hn : w.task? turn.mw (w.engine turn.mw).nextTask = none) (e : Effect)
    (hs : A → (w.execTrigger turn body nests e).world.Sole) :
    Wired A ((w.execTrigger turn body nests e).followedBy F) := by
  unfold World.execTrigger at hs ⊢
  split
  · exact h.quiet (.of_calm (.refl w) rfl)
  · rename_i hhalt
    simp only [hhalt, if_false, Bool.false_eq_true] at hs
    set n := (w.engine turn.mw).nextEffect with hne
    set w₁ := (w.setEngine turn.mw fun g => { g with nextEffect := n + 1 }).record turn.mw
      (.triggered turn.task n (Nest.link nests).parent? e) with hw₁
    have hc : w.Calm w₁ :=
      World.Calm.trans (.setEngine' (f := fun g => { g with nextEffect := n + 1 }) rfl rfl rfl Iff.rfl)
        (.record _)
    have h1 := h.calm hc
    have ha1 : w₁.Alive turn.mw := hc.alive_iff.2 ha
    have hnew1 : New ⟨F, w₁⟩ ⟨turn.mw, n⟩ := new_calm hnew hc
    have he : w₁.engine turn.mw = { w.engine turn.mw with nextEffect := n + 1 } :=
      World.engine_setEngine ha.has fun g => { g with nextEffect := n + 1 }
    have hn1 : w₁.task? turn.mw (w₁.engine turn.mw).nextTask = none := by
      simp only [World.task?, he]
      exact hn
    cases e with
    | take source p => exact h1.startTake ha1 hnew1 source p
    | put target => exact h1.startPut ha1 hnew1 target
    | call name r => exact h1.startCall ha1 hnew1 r hs
    | fork saga detached => exact h1.startFork hn1 saga detached
    | join target =>
      exact h1.startJoin ha1 hnew1 (fun u y hy => hlast u y (hc.joiners .. ▸ hy)) target
    | race members =>
      simp only [World.startKeyedRace]
      split
      · exact h1.immediate _
      · exact h1.startRace hnew1 _ _
    | racePositional members => exact h1.startRace hnew1 _ _
    | all members => exact h1.startAll hnew1 _
    | cancel target => exact h1.startCancel target
    | select key => exact (h1.calm .readState).immediate _

/-! ## Going on after a start -/

theorem setMember (h : Wired A ⟨F, w⟩) (i : MiddlewareId) (p : EffectId) (slot : Nat)
    (member : EffectId) : Wired A ⟨F, w.setMember i p slot member⟩ := by
  refine h.calm (.setWaits fun {y t link k} hl => ?_)
  rw [Table.get?_modify]
  split
  · rename_i hyp
    subst hyp
    cases hw : (w.engine i).waits.get? y with
    | none => simp
    | some wait =>
      obtain ⟨t', link', kind⟩ := wait
      cases kind with
      | race | all =>
        simp only [Option.map_some, WaitKind.setMember, Option.some.injEq, Wait.mk.injEq]
        constructor
        · rintro ⟨-, -, rfl⟩
          exact hl.elim
        · rintro ⟨-, -, rfl⟩
          exact hl.elim
      | _ => simp [WaitKind.setMember]
  · exact Iff.rfl

theorem nextOfRace (h : Wired A ⟨F, w⟩) (slot : Nat) (rest : List Effect) :
    Wired A ((w.nextOfRace turn body x slot rest nests).followedBy F) := by
  unfold World.nextOfRace
  split <;> exact h.quiet (.of_calm (.refl _) rfl)

theorem nextOfAll (h : Wired A ⟨F, w⟩) (slot : Nat) (rest : List Effect) :
    Wired A ((w.nextOfAll turn body x slot rest nests).followedBy F) := by
  unfold World.nextOfAll
  split
  · exact h.quiet (.of_calm (.refl _) rfl)
  · split
    · rename_i t link results members hw
      refine (h.calm (.setWaits fun {y t link k} hl => ?_)).immediate _
      rw [Table.get?_erase]
      split
      · rename_i hyx
        rw [hyx, hw]
        constructor
        · rintro ⟨⟩
        · rintro ⟨⟩
          exact hl.elim
      · exact Iff.rfl
    · exact h.quiet (.of_calm (.refl _) rfl)

theorem merge (h : Wired A ⟨F, w⟩) (i : MiddlewareId) (p : EffectId) (slot : Nat)
    (signal : Signal) :
    Wired A ⟨F, w.setWaits i (Waits.merge (w.engine i).waits p slot signal).2⟩ := by
  have hm : Waits.Withdraws (fun _ => False) (w.engine i).waits []
    (Waits.merge (w.engine i).waits p slot signal).2 := .merge ..
  refine h.calm (.setWaits fun {y t link k} hl => ⟨fun hy => hm.old hy hl, fun hy => ?_⟩)
  rcases hm.covered hy hl with hy' | hy' | hy'
  · exact hy'
  · cases hy'
  · exact hy'.elim

theorem resumeBody (h : Wired A ⟨F, w⟩) (hi : w.Has turn.mw) (start : Start) :
    Wired A ((w.resumeBody turn body start).followedBy F) := by
  unfold World.resumeBody
  simp only
  split
  · exact h.quiet (.of_calm (.refl _) rfl)
  · split
    · exact (h.cancelWait hi _).quiet (.of_calm (.refl _) rfl)
    · exact h.quiet (.of_calm (.refl _) rfl)
  · split
    · exact h.quiet (.of_calm (.refl _) rfl)
    · split
      · exact h.quiet (.of_calm (.refl _) rfl)
      · split <;> exact h.quiet (.of_calm (.refl _) rfl)
      · split <;> exact h.quiet (.of_calm (.refl _) rfl)

/-- An effect was started inside of combinators that are in the table. -/
theorem execBegun (h : Wired A ⟨F, w⟩) (hi : w.Has turn.mw)
    (hn : ∀ n ∈ nests, ∀ {wait}, (w.engine turn.mw).waits.get? n.id = some wait →
      ¬ wait.kind.IsLeaf) (start : Start) :
    Wired A ((w.execBegun turn body nests start).followedBy F) := by
  unfold World.execBegun
  cases nests with
  | nil => exact h.resumeBody hi start
  | cons n nests =>
    have hleaf := @hn n List.mem_cons_self
    cases n with
    | race p slot rest =>
      unfold World.begunInRace
      simp only
      split
      · exact (h.setMember ..).nextOfRace _ _
      · exact (h.cancelWait hi _).quiet (.of_calm (.refl _) rfl)
      · split
        · exact h.quiet (.of_calm (.refl _) rfl)
        · exact (h.closeRace hi hleaf _ _).immediate _
    | all p slot rest =>
      unfold World.begunInAll
      simp only
      split
      · exact (h.setMember ..).nextOfAll _ _
      · exact (h.cancelWait hi _).quiet (.of_calm (.refl _) rfl)
      · exact (h.merge ..).nextOfAll _ _
      · split
        · exact h.immediate _
        · exact (h.dropAll hi hleaf).immediate _

end Start

/-! ## The end of tasks -/

theorem execLeave (h : Wired A ⟨F, w⟩) (turn : Turn) (body : Body) (exit : Exit) :
    Wired A ((w.execLeave turn body exit).followedBy F) := by
  have h1 : Wired A ⟨F, w.setEngine turn.mw fun e => { e with current := none }⟩ :=
    h.calm (.setEngine' rfl rfl rfl Iff.rfl)
  unfold World.execLeave
  simp only
  split
  · exact h1.calm (.park ..)
  · exact (h1.calm (.park ..)).calm (.schedule fun y signal hy => by cases hy)
  · exact h1.quiet (.of_calm (.refl _) rfl)
  · exact h1.quiet (.of_calm (.refl _) rfl)
  · exact h1.quiet (.of_calm (.refl _) rfl)
  · exact h1.quiet (.of_calm (.refl _) rfl)

theorem execReturned (h : Wired A ⟨F, w⟩) (turn : Turn) (v : Value) :
    Wired A ((w.execReturned turn v).followedBy F) := by
  unfold World.execReturned
  split
  · exact h
  · split
    · exact h
    · split
      · exact h.quiet (.of_calm (.setTask (f := fun n => { n with result := some v }) fun _ => rfl) rfl)
      · exact h.calm (.setTask fun _ => rfl)

theorem execCascade (h : Wired A ⟨F, w⟩) (hi : w.Has i) (c : Cascade) :
    Wired A ((w.execCascade i c).followedBy F) := by
  unfold World.execCascade
  split
  · exact h.quiet (.of_calm (.refl _) rfl)
  · split
    · exact h
    · split
      · exact h
      · split
        · exact h
        · rename_i t _ _ _ _ _ _ _
          have h1 : Wired A ⟨F, w.setTask i t fun n => { n with result := none }⟩ :=
            h.calm (.setTask fun _ => rfl)
          exact Wired.cascadeOn (h1.finalize (World.has_setEngine.2 hi) _ _)

end Config.Wired

end SagaMachine
