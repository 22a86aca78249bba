import SagaMachine.Proofs.Names

/-!
# Registrations

A pending effect that waits for something outside its own middleware's wait table (`World.Claims`)
is registered there: as a taker on the bus or on a channel, as the listener of a deferred, or as
a joiner of a task (`World.Registered`). A registration ends when a settlement of the effect is
on its way (`Config.Owes`).

The three fit together wherever a run comes to (`Config.Wired`): whoever is registered waits for
it, and nothing is on its way to it yet; whoever takes or joins is registered or will be told, and
so is whoever calls, if no two calls ever wait for one deferred.

Main definitions: `World.Claims`, `World.Registered`, `Config.Owes`, `Config.Wired`.
-/

namespace SagaMachine

namespace World

/-- A pending effect of a middleware. -/
def wait? (w : World) (r : EffectRef) : Option Wait := (w.engine r.mw).waits.get? r.effect

/-- The effects that join on a task. -/
def joiners (w : World) (i : MiddlewareId) (t : TaskId) : List EffectId :=
  ((w.task? i t).map (·.joiners)).getD []

/-- There is such a middleware, and it was not dropped. -/
def Alive (w : World) (i : MiddlewareId) : Prop := w.alive? i = some true

/-- A pending effect of a task waits for something outside the wait table. -/
structure Claims (w : World) (r : EffectRef) (t : TaskId) (k : WaitKind) : Prop where
  isLeaf : k.IsLeaf
  wait : ∃ link, w.wait? r = some ⟨t, link, k⟩

/-- An effect is registered with what it waits for. -/
inductive Registered (w : World) (r : EffectRef) : WaitKind → Prop
  | bus {t : BusTaker} (ht : t ∈ (w.engine r.mw).bus.takers) (he : t.effect = r.effect) :
      Registered w r (.take .bus t.id)
  | channel {c : ChannelId} {channel : Channel Sink} {t : Taker Sink}
      (hc : w.channels.get? c = some channel) (ht : t ∈ channel.takers) (hs : t.sink = .effect r) :
      Registered w r (.take (.channel c) t.id)
  | call {d : DeferredId} {deferred : Deferred EffectRef} (hd : w.deferreds.get? d = some deferred)
      (hl : deferred.listener = some r) : Registered w r (.call d)
  | join {u : TaskId} (hj : r.effect ∈ w.joiners r.mw u) : Registered w r (.join u)

/-- No two pending calls wait for one deferred. -/
def Sole (w : World) : Prop :=
  ∀ ⦃r s : EffectRef⦄ ⦃t u : TaskId⦄ ⦃d : DeferredId⦄,
    w.Claims r t (.call d) → w.Claims s u (.call d) → r = s

/-- Registrations are numbered, and an effect that waits for a number has it for itself. -/
structure Numbered (w : World) : Prop where
  bus : ∀ i, ((w.engine i).bus.takers.map (·.id)).Nodup
  busNext : ∀ {i t}, t ∈ (w.engine i).bus.takers → t.id < (w.engine i).bus.nextTaker
  owner : ∀ {i t u k}, t ∈ (w.engine i).bus.takers → w.Claims ⟨i, t.effect⟩ u k → u = t.owner
  onBus : ∀ {r t id}, w.Claims r t (.take .bus id) → id < (w.engine r.mw).bus.nextTaker ∧
    ∀ b ∈ (w.engine r.mw).bus.takers, b.id = id → b.effect = r.effect
  channel : ∀ {c channel}, w.channels.get? c = some channel → (channel.takers.map (·.id)).Nodup
  channelNext : ∀ {c channel t}, w.channels.get? c = some channel → t ∈ channel.takers →
    t.id < channel.nextTaker
  closed : ∀ {c channel}, w.channels.get? c = some channel → channel.closed = true →
    channel.takers = []
  onChannel : ∀ {r t c id channel}, w.Claims r t (.take (.channel c) id) →
    w.channels.get? c = some channel → id < channel.nextTaker ∧
      ∀ b ∈ channel.takers, b.id = id → b.sink = .effect r
  joiners : ∀ i t, (w.joiners i t).Pairwise (· < ·)
  unsettled : ∀ {d deferred r}, w.deferreds.get? d = some deferred → deferred.listener = some r →
    deferred.outcome = none

/-- Every running timer stands behind a deferred that somebody listens to. -/
structure Timed (w : World) : Prop where
  armed : ∀ {t}, t ∈ w.timers → ∃ deferred, w.deferreds.get? t.deferred = some deferred ∧
    deferred.timer = some t.id ∧ deferred.listener.isSome
  timer : ∀ {d deferred id}, w.deferreds.get? d = some deferred → deferred.timer = some id →
    id < w.nextTimer ∧ ∀ t ∈ w.timers, t.id = id → t.deferred = d
  next : ∀ {d deferred}, w.deferreds.get? d = some deferred → d < w.nextDeferred
  named : ∀ {name d}, w.deferredNames.get? name = some d →
    ∃ deferred, w.deferreds.get? d = some deferred ∧ deferred.timer = none

variable {w : World} {i : MiddlewareId} {r : EffectRef} {t u : TaskId} {k k' : WaitKind}

theorem Alive.has (h : w.Alive i) : w.Has i := by
  rw [has_iff, show w.alive? i = some true from h]
  rfl

theorem Claims.unique (h : w.Claims r t k) (h' : w.Claims r u k') : t = u ∧ k = k' := by
  obtain ⟨link, hw⟩ := h.wait
  obtain ⟨link', hw'⟩ := h'.wait
  rw [hw] at hw'
  cases hw'
  exact ⟨rfl, rfl⟩

end World

/-- A settlement of an effect is on the agenda, or an errand that ends with one. -/
def Agenda.Owes (a : Agenda) (x : EffectId) : Prop :=
  (∃ signal, .settle x signal ∈ a.stack ∨ .settle x signal ∈ a.fresh) ∨
    ∃ e ∈ a.errands, e.reply? = some x

namespace Instr

/-- An instruction is about to settle an effect, or to schedule its settlement. -/
def Settles (r : EffectRef) : Instr → Prop
  | .perform i (.reaction (.settle x _)) | .schedule i (.settle x _)
  | .emit i _ (.effect x) | .forwarded i _ (.effect x) => r = ⟨i, x⟩
  | .perform i (.errand e) => ∃ x, e.reply? = some x ∧ r = ⟨i, x⟩
  | .deliver (.effect s) _ => r = s
  | _ => False

/-- The function that an effect calls is at work. -/
def Makes (r : EffectRef) : Instr → Prop
  | .answer turn _ _ x _ _ => r = ⟨turn.mw, x⟩
  | _ => False

/-- A taker of user code is about to be known by a tag. -/
def Tags (c : ChannelId) (id : TakerId) : Instr → Prop
  | .registered _ _ d n => d = c ∧ n = id
  | _ => False

/-- An instruction that plays no part in the settlement of effects. -/
structure Mute (x : Instr) : Prop where
  settles : ∀ r, ¬ x.Settles r
  makes : ∀ r, ¬ x.Makes r
  tags : ∀ c id, ¬ x.Tags c id

/-- An instruction plays the part of another one. -/
structure Relays (x y : Instr) : Prop where
  settles : ∀ r, y.Settles r ↔ x.Settles r
  makes : ∀ r, y.Makes r → x.Makes r
  tags : ∀ c id, y.Tags c id → x.Tags c id

end Instr

/-- Every call has its deferred for itself, if this is a call. -/
def WaitKind.Assured (A : Prop) (k : WaitKind) : Prop := ∀ d, k = .call d → A

namespace Config

/-- The settlement of an effect is on its way. -/
def Owes (c : Config) (r : EffectRef) : Prop :=
  (c.world.engine r.mw).agenda.Owes r.effect ∨ ∃ x ∈ c.todo, x.Settles r

/-- The function that an effect calls is at work somewhere. -/
def Makes (c : Config) (r : EffectRef) : Prop := ∃ x ∈ c.todo, x.Makes r

/-- A taker of user code is known by a tag, or about to be. -/
def Tags (c : Config) (d : ChannelId) (id : TakerId) : Prop :=
  (∃ tag, c.world.takerTags.get? tag = some (d, id)) ∨ ∃ x ∈ c.todo, x.Tags d id

/-- What an effect waits for, where it is registered and what is on its way to it agree. -/
structure Fits (A : Prop) (c : Config) (r : EffectRef) : Prop where
  backed : ∀ {k}, c.world.Registered r k → ∃ t, c.world.Claims r t k
  silent : ∀ {k}, c.world.Registered r k → ¬ c.Owes r
  making : c.Makes r → (∀ t k, ¬ c.world.Claims r t k) ∧ ¬ c.Owes r
  served : ∀ {t k}, k.Assured A → c.world.Claims r t k → c.world.Registered r k ∨ c.Owes r

/--
Pending effects, registrations and settlements on their way fit together. Every pending effect
without members is registered, unless its settlement is on its way; for a call this depends on
that no two calls ever wait for one deferred (`A`).
-/
structure Wired (A : Prop) (c : Config) : Prop where
  numbered : c.world.Numbered
  timed : c.world.Timed
  tagged : ∀ {d id}, c.Tags d id → ∃ channel, c.world.channels.get? d = some channel ∧
    id < channel.nextTaker ∧ ∀ b ∈ channel.takers, b.id = id → ∀ r, b.sink ≠ .effect r
  sole : A → c.world.Sole
  fits : ∀ {r}, c.world.Alive r.mw → c.Fits A r

end Config

/-! ## Fewer registrations -/

section Rel

variable {α : Type} {R S : α → α → Prop} {a b : α} {x y z : Option α}

theorem Option.Rel.right (h : Option.Rel R (some a) y) : ∃ b, y = some b ∧ R a b := by
  cases h with
  | some h => exact ⟨_, rfl, h⟩

theorem Option.Rel.left (h : Option.Rel R x (some b)) : ∃ a, x = some a ∧ R a b := by
  cases h with
  | some h => exact ⟨_, rfl, h⟩

theorem Option.Rel.mono (h : Option.Rel R x y) (hRS : ∀ {a b}, R a b → S a b) :
    Option.Rel S x y := by
  generalize x = x, y = y at h
  cases h with
  | none => exact .none
  | some h => exact .some (hRS h)

theorem Option.Rel.trans (hR : ∀ {a b c}, R a b → R b c → R a c) (h : Option.Rel R x y)
    (h' : Option.Rel R y z) : Option.Rel R x z := by
  cases x with
  | none =>
    cases y with
    | none => exact h'
    | some _ => cases h
  | some a =>
    obtain ⟨b, rfl, hab⟩ := Option.Rel.right h
    obtain ⟨c, rfl, hbc⟩ := Option.Rel.right h'
    exact .some (hR hab hbc)

theorem Option.Rel.refl (hR : ∀ a, R a a) (x : Option α) : Option.Rel R x x := by
  cases x with
  | none => exact .none
  | some a => exact .some (hR a)

end Rel

/-- A channel that lost takers at most. -/
structure Channel.Shrinks {κ : Type} (c c' : Channel κ) : Prop where
  takers : c'.takers.Sublist c.takers
  nextTaker : c.nextTaker ≤ c'.nextTaker
  closed : c'.closed = true → c.closed = true ∨ c'.takers = []

theorem Channel.Shrinks.refl {κ : Type} (c : Channel κ) : c.Shrinks c := ⟨.refl _, Nat.le_refl _, Or.inl⟩

theorem Channel.Shrinks.trans {κ : Type} {c c' c'' : Channel κ} (h : c.Shrinks c')
    (h' : c'.Shrinks c'') : c.Shrinks c'' where
  takers := h'.takers.trans h.takers
  nextTaker := Nat.le_trans h.nextTaker h'.nextTaker
  closed hc := by
    rcases h'.closed hc with hc' | hnil
    · rcases h.closed hc' with hc | hnil
      · exact Or.inl hc
      · have := h'.takers
        rw [hnil] at this
        exact Or.inr (List.sublist_nil.1 this)
    · exact Or.inr hnil

namespace World

/-- A change of an engine is seen in that engine, if at all. -/
theorem engine_setEngine_or (w : World) (i j : MiddlewareId) (f : Engine → Engine) :
    (w.setEngine j f).engine i = w.engine i ∨
      i = j ∧ w.Has i ∧ (w.setEngine j f).engine i = f (w.engine i) := by
  by_cases hij : i = j
  · subst hij
    cases hm : w.middlewares.get? i with
    | none =>
      left
      simp [engine, setEngine, hm]
    | some m => exact Or.inr ⟨rfl, ⟨m, hm⟩, engine_setEngine ⟨m, hm⟩ f⟩
  · exact Or.inl (untouched_setEngine hij f).engine

/-- A world in which some effects are not pending any more, or not registered. -/
structure Shrinks (w w' : World) : Prop where
  alive : ∀ {i}, w'.Alive i → w.Alive i
  claims : ∀ {r t k}, w'.Claims r t k → w.Claims r t k
  takers : ∀ i, (w'.engine i).bus.takers.Sublist (w.engine i).bus.takers
  nextTaker : ∀ i, (w.engine i).bus.nextTaker ≤ (w'.engine i).bus.nextTaker
  joiners : ∀ i t, (w'.joiners i t).Sublist (w.joiners i t)
  channels : ∀ d, Option.Rel Channel.Shrinks (w.channels.get? d) (w'.channels.get? d)
  listener : ∀ {d deferred' r}, w'.deferreds.get? d = some deferred' → deferred'.listener = some r →
    ∃ deferred, w.deferreds.get? d = some deferred ∧ deferred.listener = some r ∧
      deferred'.outcome = deferred.outcome
  tags : w'.takerTags = w.takerTags

namespace Shrinks

variable {w w' w'' : World} {r : EffectRef} {k : WaitKind}

theorem channel (h : w.Shrinks w') {d : ChannelId} {channel' : Channel Sink}
    (hd : w'.channels.get? d = some channel') :
    ∃ channel, w.channels.get? d = some channel ∧ channel.Shrinks channel' := by
  have hc := h.channels d
  rw [hd] at hc
  exact Option.Rel.left hc

theorem refl (w : World) : w.Shrinks w :=
  ⟨id, id, fun _ => .refl _, fun _ => Nat.le_refl _, fun _ _ => .refl _,
    fun _ => Option.Rel.refl .refl _, fun hd hl => ⟨_, hd, hl, rfl⟩, rfl⟩

theorem trans (h : w.Shrinks w') (h' : w'.Shrinks w'') : w.Shrinks w'' where
  alive ha := h.alive (h'.alive ha)
  claims hc := h.claims (h'.claims hc)
  takers i := (h'.takers i).trans (h.takers i)
  nextTaker i := Nat.le_trans (h.nextTaker i) (h'.nextTaker i)
  joiners i t := (h'.joiners i t).trans (h.joiners i t)
  channels d := Option.Rel.trans Channel.Shrinks.trans (h.channels d) (h'.channels d)
  listener hd hl := by
    obtain ⟨deferred', hd', hl', ho'⟩ := h'.listener hd hl
    obtain ⟨deferred, hd, hl, ho⟩ := h.listener hd' hl'
    exact ⟨deferred, hd, hl, ho'.trans ho⟩
  tags := h'.tags.trans h.tags

/-- An engine loses pending effects, takers or joiners. -/
theorem setEngine {i : MiddlewareId} {f : Engine → Engine}
    (hw : ∀ {x wait}, wait.kind.IsLeaf → (f (w.engine i)).waits.get? x = some wait →
      (w.engine i).waits.get? x = some wait)
    (hb : (f (w.engine i)).bus.takers.Sublist (w.engine i).bus.takers)
    (hn : (w.engine i).bus.nextTaker ≤ (f (w.engine i)).bus.nextTaker)
    (hj : ∀ t, ((((f (w.engine i)).tasks.get? t).map (·.joiners)).getD []).Sublist (w.joiners i t)) :
    w.Shrinks (w.setEngine i f) where
  alive ha := by rwa [Alive, alive_setEngine] at ha
  claims {r t k} := by
    obtain ⟨j, x⟩ := r
    rcases engine_setEngine_or w j i f with he | ⟨rfl, -, he⟩
    · rintro ⟨hl, link, hx⟩
      exact ⟨hl, link, by simpa only [World.wait?, he] using hx⟩
    · rintro ⟨hl, link, hx⟩
      exact ⟨hl, link, hw hl (by simpa only [World.wait?, he] using hx)⟩
  takers j := by
    rcases engine_setEngine_or w j i f with he | ⟨rfl, -, he⟩
    · exact he ▸ .refl _
    · rw [he]
      exact hb
  nextTaker j := by
    rcases engine_setEngine_or w j i f with he | ⟨rfl, -, he⟩
    · exact Nat.le_of_eq (by rw [he])
    · rw [he]
      exact hn
  joiners j t := by
    rcases engine_setEngine_or w j i f with he | ⟨rfl, -, he⟩
    · simp only [World.joiners, World.task?, he]
      exact .refl _
    · simpa only [World.joiners, World.task?, he] using hj t
  channels _ := Option.Rel.refl .refl _
  listener hd hl := ⟨_, hd, hl, rfl⟩
  tags := rfl

theorem registered (h : w.Shrinks w') (hr : w'.Registered r k) : w.Registered r k := by
  cases hr with
  | bus ht he => exact .bus ((h.takers _).subset ht) he
  | channel hc ht hs =>
    obtain ⟨channel, hc', hsub⟩ := h.channel hc
    exact .channel hc' (hsub.takers.subset ht) hs
  | call hd hl =>
    obtain ⟨deferred, hd', hl', -⟩ := h.listener hd hl
    exact .call hd' hl'
  | join hj => exact .join ((h.joiners _ _).subset hj)

theorem numbered (h : w.Shrinks w') (hn : w.Numbered) : w'.Numbered where
  bus i := (hn.bus i).sublist ((h.takers i).map _)
  busNext ht := Nat.lt_of_lt_of_le (hn.busNext ((h.takers _).subset ht)) (h.nextTaker _)
  owner ht hc := hn.owner ((h.takers _).subset ht) (h.claims hc)
  onBus hc := by
    obtain ⟨hlt, hb⟩ := hn.onBus (h.claims hc)
    exact ⟨Nat.lt_of_lt_of_le hlt (h.nextTaker _), fun b hm => hb b ((h.takers _).subset hm)⟩
  channel hc := by
    obtain ⟨channel, hc', hs⟩ := h.channel hc
    exact (hn.channel hc').sublist (hs.takers.map _)
  channelNext hc ht := by
    obtain ⟨channel, hc', hs⟩ := h.channel hc
    exact Nat.lt_of_lt_of_le (hn.channelNext hc' (hs.takers.subset ht)) hs.nextTaker
  closed hc hcl := by
    obtain ⟨channel, hc', hs⟩ := h.channel hc
    rcases hs.closed hcl with hcl' | hnil
    · have := hs.takers
      rw [hn.closed hc' hcl'] at this
      exact List.sublist_nil.1 this
    · exact hnil
  onChannel hcl hc := by
    obtain ⟨channel, hc', hs⟩ := h.channel hc
    obtain ⟨hlt, hb⟩ := hn.onChannel (h.claims hcl) hc'
    exact ⟨Nat.lt_of_lt_of_le hlt hs.nextTaker, fun b hm => hb b (hs.takers.subset hm)⟩
  joiners i t := (hn.joiners i t).sublist (h.joiners i t)
  unsettled hd hl := by
    obtain ⟨deferred, hd', hl', ho⟩ := h.listener hd hl
    rw [ho]
    exact hn.unsettled hd' hl'

theorem sole (h : w.Shrinks w') (hs : w.Sole) : w'.Sole := fun _ _ _ _ _ h1 h2 =>
  hs (h.claims h1) (h.claims h2)

end Shrinks

end World

namespace Config

variable {A : Prop} {w w' : World} {F F' : List Instr} {r : EffectRef}

/--
Effects stop waiting or lose their registrations. Whoever is still registered still waits for it
(`keeps`) and is not told yet (`quiet`); whoever still waits is registered or will be told
(`serves`).
-/
theorem Wired.shrink (h : Wired A ⟨F, w⟩) (hs : w.Shrinks w') (ht : w'.Timed)
    (tags : ∀ x ∈ F', ∀ d id, x.Tags d id → ∃ y ∈ F, y.Tags d id)
    (keeps : ∀ {r t k}, w'.Alive r.mw → w'.Registered r k → w.Claims r t k → w'.Claims r t k)
    (quiet : ∀ {r k}, w'.Alive r.mw → w'.Registered r k → Owes ⟨F', w'⟩ r → Owes ⟨F, w⟩ r)
    (makes : ∀ {r}, w'.Alive r.mw → Makes ⟨F', w'⟩ r →
      Makes ⟨F, w⟩ r ∧ (Owes ⟨F', w'⟩ r → Owes ⟨F, w⟩ r))
    (serves : ∀ {r t k}, k.Assured A → w'.Alive r.mw → w'.Claims r t k →
      w.Registered r k ∨ Owes ⟨F, w⟩ r → w'.Registered r k ∨ Owes ⟨F', w'⟩ r) :
    Wired A ⟨F', w'⟩ where
  numbered := hs.numbered h.numbered
  timed := ht
  tagged {d id} hd := by
    have hd' : Tags ⟨F, w⟩ d id := by
      rcases hd with ⟨tag, htag⟩ | ⟨x, hx, hd⟩
      · exact Or.inl ⟨tag, hs.tags ▸ htag⟩
      · exact Or.inr (tags x hx d id hd)
    obtain ⟨channel, hc, hlt, hb⟩ := h.tagged hd'
    have hrel := hs.channels d
    simp only at hc
    rw [hc] at hrel
    obtain ⟨channel', hc', hsub⟩ := Option.Rel.right hrel
    exact ⟨channel', hc', Nat.lt_of_lt_of_le hlt hsub.nextTaker,
      fun b hm => hb b (hsub.takers.subset hm)⟩
  sole hA := hs.sole (h.sole hA)
  fits {r} ha := by
    have hr := h.fits (hs.alive ha)
    refine ⟨fun hreg => ?_, fun hreg ho => ?_, fun hm => ?_, fun {t k} hA hc => ?_⟩
    · obtain ⟨t, hc⟩ := hr.backed (hs.registered hreg)
      exact ⟨t, keeps ha hreg hc⟩
    · exact hr.silent (hs.registered hreg) (quiet ha hreg ho)
    · obtain ⟨hm', ho⟩ := makes ha hm
      obtain ⟨hno, hno'⟩ := hr.making hm'
      exact ⟨fun t k hc => hno t k (hs.claims hc), fun h => hno' (ho h)⟩
    · exact serves hA ha hc (hr.served hA (hs.claims hc))

/-! ## The instructions change -/

theorem owes_cons {x : Instr} : Owes ⟨x :: F, w⟩ r ↔ x.Settles r ∨ Owes ⟨F, w⟩ r := by
  simp only [Owes, List.mem_cons, exists_eq_or_imp]
  exact or_left_comm

/-- Instructions are replaced by others that play the same part. -/
theorem Wired.reframe (h : Wired A ⟨F, w⟩)
    (ho : ∀ r, w.Alive r.mw → ((∃ x ∈ F', x.Settles r) ↔ ∃ x ∈ F, x.Settles r))
    (hm : ∀ x ∈ F', ∀ r, x.Makes r → ∃ y ∈ F, y.Makes r)
    (ht : ∀ x ∈ F', ∀ d id, x.Tags d id → ∃ y ∈ F, y.Tags d id) : Wired A ⟨F', w⟩ := by
  have howes : ∀ {r}, w.Alive r.mw → (Owes ⟨F', w⟩ r ↔ Owes ⟨F, w⟩ r) := fun ha => by
    simp only [Owes, ho _ ha]
  refine ⟨h.numbered, h.timed, fun hd => h.tagged ?_, h.sole, fun {r} ha => ?_⟩
  · rcases hd with hd | ⟨x, hx, hd⟩
    · exact Or.inl hd
    · exact Or.inr (ht x hx _ _ hd)
  · have hr := h.fits ha
    refine ⟨hr.backed, fun hreg => ?_, fun ⟨x, hx, hmk⟩ => ?_, fun {t k} hA hc => ?_⟩
    · rw [howes ha]
      exact hr.silent hreg
    · rw [howes ha]
      exact hr.making (hm x hx _ hmk)
    · rw [howes ha]
      exact hr.served hA hc

/-- An instruction is gone that would have settled what is not pending. -/
theorem Wired.forget {x : Instr} (h : Wired A ⟨x :: F, w⟩)
    (hx : ∀ r, x.Settles r → ∀ t k, ¬ w.Claims r t k) : Wired A ⟨F, w⟩ := by
  have howe : ∀ {r}, Owes ⟨F, w⟩ r → Owes ⟨x :: F, w⟩ r := fun h => owes_cons.2 (Or.inr h)
  refine ⟨h.numbered, h.timed, fun hd => h.tagged ?_, h.sole, fun {r} ha => ?_⟩
  · exact hd.imp_right fun ⟨y, hy, hd⟩ => ⟨y, List.mem_cons_of_mem _ hy, hd⟩
  · have hr := h.fits ha
    refine ⟨hr.backed, fun hreg ho => hr.silent hreg (howe ho), fun ⟨y, hy, hm⟩ => ?_,
      fun {t k} hA hc => ?_⟩
    · obtain ⟨h1, h2⟩ := hr.making ⟨y, List.mem_cons_of_mem _ hy, hm⟩
      exact ⟨h1, fun ho => h2 (howe ho)⟩
    · refine (hr.served hA hc).imp_right fun ho => ?_
      exact (owes_cons.1 ho).resolve_left fun hs => hx r hs t k hc

theorem Wired.mute (h : Wired A ⟨F, w⟩) {G : List Instr} (hG : ∀ x ∈ G, x.Mute) :
    Wired A ⟨G ++ F, w⟩ := by
  refine h.reframe (fun r _ => ?_) (fun x hx r hm => ?_) fun x hx d id ht => ?_
  · constructor
    · rintro ⟨x, hx, hs⟩
      rcases List.mem_append.1 hx with hx | hx
      · exact absurd hs ((hG x hx).settles r)
      · exact ⟨x, hx, hs⟩
    · rintro ⟨x, hx, hs⟩
      exact ⟨x, List.mem_append_right _ hx, hs⟩
  · rcases List.mem_append.1 hx with hx | hx
    · exact absurd hm ((hG x hx).makes r)
    · exact ⟨x, hx, hm⟩
  · rcases List.mem_append.1 hx with hx | hx
    · exact absurd ht ((hG x hx).tags d id)
    · exact ⟨x, hx, ht⟩

theorem Wired.cons {x : Instr} (h : Wired A ⟨F, w⟩) (hx : x.Mute) : Wired A ⟨x :: F, w⟩ :=
  h.mute (G := [x]) fun y hy => by rwa [List.mem_singleton.1 hy]

/-- An instruction is gone that nobody was waiting for. -/
theorem Wired.tail {x : Instr} (h : Wired A ⟨x :: F, w⟩) (hx : ∀ r, w.Alive r.mw → ¬ x.Settles r) :
    Wired A ⟨F, w⟩ := by
  refine h.reframe (fun r ha => ?_) (fun y hy r hm => ⟨y, List.mem_cons_of_mem _ hy, hm⟩)
    fun y hy d id ht => ⟨y, List.mem_cons_of_mem _ hy, ht⟩
  simp only [List.mem_cons, exists_eq_or_imp]
  exact (or_iff_right (hx r ha)).symm

theorem Wired.drop {x : Instr} (h : Wired A ⟨x :: F, w⟩) (hx : x.Mute) : Wired A ⟨F, w⟩ :=
  h.tail fun r _ => hx.settles r

/-- An instruction is replaced by another one that plays the same part. -/
theorem Wired.relay {x y : Instr} (h : Wired A ⟨x :: F, w⟩) (hxy : x.Relays y) :
    Wired A ⟨y :: F, w⟩ := by
  refine h.reframe (fun r _ => ?_) (fun z hz r hm => ?_) fun z hz d id ht => ?_
  · simp only [List.mem_cons, exists_eq_or_imp, hxy.settles]
  · rcases List.mem_cons.1 hz with rfl | hz
    · exact ⟨x, List.mem_cons_self, hxy.makes r hm⟩
    · exact ⟨z, List.mem_cons_of_mem _ hz, hm⟩
  · rcases List.mem_cons.1 hz with rfl | hz
    · exact ⟨x, List.mem_cons_self, hxy.tags d id ht⟩
    · exact ⟨z, List.mem_cons_of_mem _ hz, ht⟩

/-- The order of the instructions does not matter. -/
theorem Wired.perm (h : Wired A ⟨F, w⟩) (hF : ∀ x, x ∈ F' ↔ x ∈ F) : Wired A ⟨F', w⟩ := by
  refine h.reframe (fun r _ => ?_) (fun x hx r hm => ⟨x, (hF x).1 hx, hm⟩)
    fun x hx d id ht => ⟨x, (hF x).1 hx, ht⟩
  simp only [hF]

end Config

/-! ## Changes that are of no account -/

/-- A channel with the same takers. -/
structure Channel.Like {κ : Type} (c c' : Channel κ) : Prop where
  takers : c'.takers = c.takers
  nextTaker : c.nextTaker ≤ c'.nextTaker
  closed : c'.closed = c.closed

theorem Channel.Like.refl {κ : Type} (c : Channel κ) : c.Like c := ⟨rfl, Nat.le_refl _, rfl⟩

theorem Channel.Like.trans {κ : Type} {c c' c'' : Channel κ} (h : c.Like c') (h' : c'.Like c'') :
    c.Like c'' :=
  ⟨h'.takers.trans h.takers, Nat.le_trans h.nextTaker h'.nextTaker, h'.closed.trans h.closed⟩

theorem Channel.Like.shrinks {κ : Type} {c c' : Channel κ} (h : c.Like c') : c.Shrinks c' :=
  ⟨h.takers ▸ .refl _, h.nextTaker, fun hc => Or.inl (h.closed ▸ hc)⟩

namespace World

variable {w w' w'' : World} {i j : MiddlewareId} {r : EffectRef} {t : TaskId} {k : WaitKind}

/-- Nothing changes about pending effects, registrations, settlements on their way and timers. -/
structure Calm (w w' : World) : Prop where
  alive : ∀ i, w'.alive? i = w.alive? i
  claims : ∀ {r t k}, w'.Claims r t k ↔ w.Claims r t k
  takers : ∀ i, (w'.engine i).bus.takers = (w.engine i).bus.takers
  nextTaker : ∀ i, (w.engine i).bus.nextTaker ≤ (w'.engine i).bus.nextTaker
  joiners : ∀ i t, w'.joiners i t = w.joiners i t
  channels : ∀ d, Option.Rel Channel.Like (w.channels.get? d) (w'.channels.get? d)
  deferreds : ∀ d, w'.deferreds.get? d = w.deferreds.get? d
  timers : w'.timers = w.timers
  nextDeferred : w'.nextDeferred = w.nextDeferred
  nextTimer : w'.nextTimer = w.nextTimer
  names : w'.deferredNames = w.deferredNames
  tags : w'.takerTags = w.takerTags
  owes : ∀ {i x}, (w'.engine i).agenda.Owes x ↔ (w.engine i).agenda.Owes x

/-- Effects are what the wait table says. -/
theorem claims_congr (h : w'.wait? r = w.wait? r) : w'.Claims r t k ↔ w.Claims r t k :=
  ⟨fun hc => ⟨hc.isLeaf, h ▸ hc.wait⟩, fun hc => ⟨hc.isLeaf, h ▸ hc.wait⟩⟩

theorem Claims.of_middlewares (h : w.Claims r t k) (hm : w'.middlewares = w.middlewares) :
    w'.Claims r t k :=
  (claims_congr (by simp only [World.wait?, engine, hm])).2 h

namespace Calm

theorem refl (w : World) : Calm w w :=
  ⟨fun _ => rfl, Iff.rfl, fun _ => rfl, fun _ => Nat.le_refl _, fun _ _ => rfl,
    fun _ => Option.Rel.refl .refl _, fun _ => rfl, rfl, rfl, rfl, rfl, rfl, Iff.rfl⟩

theorem trans (h : Calm w w') (h' : Calm w' w'') : Calm w w'' where
  alive i := (h'.alive i).trans (h.alive i)
  claims := h'.claims.trans h.claims
  takers i := (h'.takers i).trans (h.takers i)
  nextTaker i := Nat.le_trans (h.nextTaker i) (h'.nextTaker i)
  joiners i t := (h'.joiners i t).trans (h.joiners i t)
  channels d := Option.Rel.trans Channel.Like.trans (h.channels d) (h'.channels d)
  deferreds d := (h'.deferreds d).trans (h.deferreds d)
  timers := h'.timers.trans h.timers
  nextDeferred := h'.nextDeferred.trans h.nextDeferred
  nextTimer := h'.nextTimer.trans h.nextTimer
  names := h'.names.trans h.names
  tags := h'.tags.trans h.tags
  owes := h'.owes.trans h.owes

/-- A change of what plays no part here. -/
theorem of_eq (hm : w'.middlewares = w.middlewares) (hc : w'.channels = w.channels)
    (hd : w'.deferreds = w.deferreds) (ht : w'.timers = w.timers)
    (hnd : w'.nextDeferred = w.nextDeferred) (hnt : w'.nextTimer = w.nextTimer)
    (hn : w'.deferredNames = w.deferredNames) (htag : w'.takerTags = w.takerTags) : Calm w w' := by
  have he : ∀ i, w'.engine i = w.engine i := fun i => by simp only [World.engine, hm]
  refine ⟨fun i => ?_, claims_congr ?_, fun i => by rw [he], fun i => by exact Nat.le_of_eq (by rw [he]),
    fun i t => ?_, fun d => ?_, fun d => by rw [hd], ht, hnd, hnt, hn, htag, fun {i x} => by rw [he]⟩
  · simp only [World.alive?, hm]
  · simp only [World.wait?, he]
  · simp only [World.joiners, World.task?, he]
  · rw [hc]
    exact Option.Rel.refl .refl _

theorem enter (e : Entry) : Calm w (w.enter e) := of_eq rfl rfl rfl rfl rfl rfl rfl rfl

theorem record (e : Event) : Calm w (w.record i e) := enter _

theorem foldl {α : Type} {f : World → α → World} (h : ∀ w a, Calm w (f w a)) (w : World)
    (as : List α) : Calm w (as.foldl f w) := by
  induction as generalizing w with
  | nil => exact refl w
  | cons a as ih => exact (h w a).trans (ih _)

theorem enterNotes (notes : List Note) : Calm w (w.enterNotes notes) :=
  foldl (fun _ n => enter (.note n)) w notes

theorem setEngine {f : Engine → Engine}
    (hw : ∀ {x t link k}, k.IsLeaf → ((f (w.engine i)).waits.get? x = some ⟨t, link, k⟩ ↔
      (w.engine i).waits.get? x = some ⟨t, link, k⟩))
    (hb : (f (w.engine i)).bus.takers = (w.engine i).bus.takers)
    (hnb : (w.engine i).bus.nextTaker ≤ (f (w.engine i)).bus.nextTaker)
    (hj : ∀ t, (((f (w.engine i)).tasks.get? t).map (·.joiners)).getD [] = w.joiners i t)
    (ho : ∀ {x}, (f (w.engine i)).agenda.Owes x ↔ (w.engine i).agenda.Owes x) :
    Calm w (w.setEngine i f) where
  alive _ := alive_setEngine
  claims {r t k} := by
    obtain ⟨j, x⟩ := r
    rcases engine_setEngine_or w j i f with he | ⟨rfl, -, he⟩
    · exact claims_congr (by simp only [World.wait?, he])
    · have hwait : (w.setEngine j f).wait? ⟨j, x⟩ = (f (w.engine j)).waits.get? x := by
        simp only [World.wait?, he]
      constructor
      · rintro ⟨hl, link, hx⟩
        exact ⟨hl, link, (hw hl).1 (hwait ▸ hx)⟩
      · rintro ⟨hl, link, hx⟩
        exact ⟨hl, link, hwait ▸ (hw hl).2 hx⟩
  takers j := by
    rcases engine_setEngine_or w j i f with he | ⟨rfl, -, he⟩
    · rw [he]
    · rw [he, hb]
  nextTaker j := by
    rcases engine_setEngine_or w j i f with he | ⟨rfl, -, he⟩
    · exact Nat.le_of_eq (by rw [he])
    · rw [he]
      exact hnb
  joiners j t := by
    rcases engine_setEngine_or w j i f with he | ⟨rfl, -, he⟩
    · simp only [World.joiners, World.task?, he]
    · rw [← hj t, World.joiners, World.task?, he]
  channels _ := Option.Rel.refl .refl _
  deferreds _ := rfl
  timers := rfl
  nextDeferred := rfl
  nextTimer := rfl
  names := rfl
  tags := rfl
  owes {j x} := by
    rcases engine_setEngine_or w j i f with he | ⟨rfl, -, he⟩
    · rw [he]
    · rw [he]
      exact ho

/-- A change of an engine that leaves its tasks, its wait table, its bus and its agenda alone. -/
theorem setEngine' {f : Engine → Engine} (ht : (f (w.engine i)).tasks = (w.engine i).tasks)
    (hw : (f (w.engine i)).waits = (w.engine i).waits)
    (hb : (f (w.engine i)).bus = (w.engine i).bus)
    (ho : ∀ {x}, (f (w.engine i)).agenda.Owes x ↔ (w.engine i).agenda.Owes x) :
    Calm w (w.setEngine i f) :=
  setEngine (by rw [hw]; exact fun _ => Iff.rfl) (by rw [hb]) (by exact Nat.le_of_eq (by rw [hb]))
    (fun t => by rw [ht]; rfl) ho

/-- Combinators in the wait table play no part here. -/
theorem setWaits {waits : Waits} (hw : ∀ {x t link k}, k.IsLeaf →
    (waits.get? x = some ⟨t, link, k⟩ ↔ (w.engine i).waits.get? x = some ⟨t, link, k⟩)) :
    Calm w (w.setWaits i waits) :=
  setEngine hw rfl (Nat.le_refl _) (fun _ => rfl) Iff.rfl

/-- A change of a task that leaves its joiners alone. -/
theorem setTask {t : TaskId} {f : TaskNode → TaskNode} (hf : ∀ n, (f n).joiners = n.joiners) :
    Calm w (w.setTask i t f) := by
  refine setEngine (fun _ => Iff.rfl) rfl (Nat.le_refl _) (fun u => ?_) Iff.rfl
  simp only [World.joiners, World.task?, Table.get?_modify]
  split
  · rename_i hut
    subst hut
    cases (w.engine i).tasks.get? u <;> simp [hf]
  · rfl

theorem park (t : TaskId) (body : Body) (pending : Option EffectId) :
    Calm w (w.park i t body pending) := setTask fun _ => rfl

/-- A reaction that settles nothing is scheduled. -/
theorem schedule {x : Reaction} (hx : ∀ y signal, x ≠ .settle y signal) :
    Calm w (w.schedule i x) := by
  refine setEngine' rfl rfl rfl ?_
  intro y
  have : ∀ signal, .settle y signal ∈ (w.engine i).agenda.fresh ++ [x] ↔
      .settle y signal ∈ (w.engine i).agenda.fresh := fun signal => by
    simp [(hx y signal).symm]
  simp only [Agenda.schedule, Agenda.Owes, this]

/-- An errand that answers nobody is queued. -/
theorem queue {e : Errand} (he : e.reply? = none) : Calm w (w.queue i e) := by
  refine (setEngine' (f := fun g => { g with agenda := g.agenda.queue e }) rfl rfl rfl ?_).trans
    (record _)
  intro y
  simp only [Agenda.queue, Agenda.Owes, List.mem_append, List.mem_singleton, or_and_right, exists_or,
    exists_eq_left, he, reduceCtorEq, or_false]

/-- A task is created under a number that was not used before. -/
theorem createTask (saga : Saga) (parent : Option TaskId) (detached : Bool)
    (hn : w.task? i (w.engine i).nextTask = none) : Calm w (w.createTask i saga parent detached) := by
  have h1 : Calm w (w.setEngine i fun e =>
      { e with
        nextTask := (w.engine i).nextTask + 1
        tasks := e.tasks.insert (w.engine i).nextTask
          { name := saga.name, parent, detached,
            body := some (saga.program.start (w.engine i).nextTask) } }) := by
    refine setEngine (fun _ => Iff.rfl) rfl (Nat.le_refl _) (fun u => ?_) Iff.rfl
    simp only [World.joiners, World.task?, Table.get?_insert]
    split
    · rename_i hu
      subst hu
      rw [show (w.engine i).tasks.get? (w.engine i).nextTask = none from hn]
      rfl
    · rfl
  unfold World.createTask
  cases parent with
  | none => exact h1.trans (record _)
  | some p =>
    cases detached with
    | true => exact h1.trans (record _)
    | false =>
      exact (h1.trans (setTask (t := p)
        (f := fun n => { n with children := n.children ++ [(w.engine i).nextTask] })
        fun _ => rfl)).trans (record _)

theorem reduceHost (a : Action) : Calm w (w.reduceHost i a) where
  alive j := (untouched_reduceHost (i := j) a).alive
  claims {r t k} := claims_congr (by
    simp only [World.wait?, (untouched_reduceHost (i := r.mw) a).engine])
  takers j := by rw [(untouched_reduceHost (i := j) a).engine]
  nextTaker j := by
    exact Nat.le_of_eq (by rw [(untouched_reduceHost (i := j) a).engine])
  joiners j t := by
    simp only [World.joiners, World.task?, (untouched_reduceHost (i := j) a).engine]
  channels _ := Option.Rel.refl .refl _
  deferreds _ := rfl
  timers := rfl
  nextDeferred := rfl
  nextTimer := rfl
  names := rfl
  tags := rfl
  owes {j x} := by rw [(untouched_reduceHost (i := j) a).engine]

theorem readState : Calm w (w.readState i).2 := by
  unfold World.readState
  split
  · exact refl w
  · simp only
    split
    · exact refl w
    · exact record _

theorem register (label : Option String) (v : Value) : Calm w (w.register label v) := by
  unfold World.register
  split
  · exact of_eq rfl rfl rfl rfl rfl rfl rfl rfl
  · exact refl w

theorem spend (h : w.spend = some w') : Calm w w' := by
  unfold World.spend at h
  split at h
  · cases h
  · cases h
    exact of_eq rfl rfl rfl rfl rfl rfl rfl rfl

/-- A channel is replaced by one with the same takers. -/
theorem setChannel {c : ChannelId} {channel channel' : Channel Sink}
    (hc : w.channels.get? c = some channel) (hl : channel.Like channel') :
    Calm w { w with channels := w.channels.insert c channel' } where
  alive _ := rfl
  claims := ⟨fun h => h.of_middlewares rfl, fun h => h.of_middlewares rfl⟩
  takers _ := rfl
  nextTaker _ := Nat.le_refl _
  joiners _ _ := rfl
  channels d := by
    rw [Table.get?_insert]
    split
    · rename_i hdc
      subst hdc
      rw [hc]
      exact .some hl
    · exact Option.Rel.refl .refl _
  deferreds _ := rfl
  timers := rfl
  nextDeferred := rfl
  nextTimer := rfl
  names := rfl
  tags := rfl
  owes := Iff.rfl

/-- A deferred is written back. -/
theorem setDeferred {d : DeferredId} {deferred : Deferred EffectRef}
    (hd : w.deferreds.get? d = some deferred) :
    Calm w { w with deferreds := w.deferreds.insert d deferred } where
  alive _ := rfl
  claims := ⟨fun h => h.of_middlewares rfl, fun h => h.of_middlewares rfl⟩
  takers _ := rfl
  nextTaker _ := Nat.le_refl _
  joiners _ _ := rfl
  channels _ := Option.Rel.refl .refl _
  deferreds e := by
    rw [Table.get?_insert]
    split
    · rename_i hed
      rw [hed, hd]
    · rfl
  timers := rfl
  nextDeferred := rfl
  nextTimer := rfl
  names := rfl
  tags := rfl
  owes := Iff.rfl

theorem alive_iff (h : Calm w w') : w'.Alive i ↔ w.Alive i := by
  rw [Alive, Alive, h.alive]

theorem shrinks (h : Calm w w') : w.Shrinks w' where
  alive := h.alive_iff.1
  claims := h.claims.1
  takers i := h.takers i ▸ .refl _
  nextTaker := h.nextTaker
  joiners i t := h.joiners i t ▸ .refl _
  channels d := Option.Rel.mono (h.channels d) Channel.Like.shrinks
  listener hd hl := ⟨_, h.deferreds _ ▸ hd, hl, rfl⟩
  tags := h.tags

theorem timed (h : Calm w w') (ht : w.Timed) : w'.Timed where
  armed hm := by rw [h.deferreds]; exact ht.armed (h.timers ▸ hm)
  timer hd hi := by rw [h.timers, h.nextTimer]; exact ht.timer (h.deferreds _ ▸ hd) hi
  next hd := by rw [h.nextDeferred]; exact ht.next (h.deferreds _ ▸ hd)
  named hn := by rw [h.deferreds]; exact ht.named (h.names ▸ hn)

theorem registered_iff (h : Calm w w') : w'.Registered r k ↔ w.Registered r k := by
  refine ⟨h.shrinks.registered, fun hr => ?_⟩
  cases hr with
  | bus ht he => exact .bus (by rwa [h.takers]) he
  | @channel c channel t hc ht hs =>
    have hrel := h.channels c
    rw [hc] at hrel
    obtain ⟨channel', hc', hl⟩ := Option.Rel.right hrel
    exact .channel hc' (by rwa [hl.takers]) hs
  | call hd hl => exact .call (by rwa [h.deferreds]) hl
  | join hj => exact .join (by rwa [h.joiners])

end Calm

end World

theorem Config.Wired.calm {A : Prop} {w w' : World} {F : List Instr} (h : Wired A ⟨F, w⟩)
    (hc : w.Calm w') : Wired A ⟨F, w'⟩ := by
  have ho : ∀ {r}, Owes ⟨F, w'⟩ r ↔ Owes ⟨F, w⟩ r := by simp only [Owes, hc.owes, implies_true]
  refine h.shrink hc.shrinks (hc.timed h.timed) (fun x hx d id ht => ⟨x, hx, ht⟩)
    (fun _ _ => hc.claims.2) (fun _ _ => ho.1) (fun _ hm => ⟨hm, ho.1⟩) fun {r t k} _ _ _ hs => ?_
  rwa [hc.registered_iff, ho]

/-- The agenda of an engine changes, and with it what instructions are about to do. -/
theorem Config.Wired.agenda {A : Prop} {w : World} {F F' : List Instr} {i : MiddlewareId}
    (h : Wired A ⟨F, w⟩) {f : Engine → Engine} (ht : (f (w.engine i)).tasks = (w.engine i).tasks)
    (hw : (f (w.engine i)).waits = (w.engine i).waits)
    (hb : (f (w.engine i)).bus = (w.engine i).bus)
    (ho : ∀ {x}, (f (w.engine i)).agenda.Owes x ∨ (∃ y ∈ F', y.Settles ⟨i, x⟩) ↔
      (w.engine i).agenda.Owes x ∨ ∃ y ∈ F, y.Settles ⟨i, x⟩)
    (ho' : ∀ {r}, r.mw ≠ i → ((∃ y ∈ F', y.Settles r) ↔ ∃ y ∈ F, y.Settles r))
    (hm : ∀ x ∈ F', ∀ r, x.Makes r → ∃ y ∈ F, y.Makes r)
    (htag : ∀ x ∈ F', ∀ d id, x.Tags d id → ∃ y ∈ F, y.Tags d id) :
    Wired A ⟨F', w.setEngine i f⟩ := by
  have hwait : ∀ r, (w.setEngine i f).wait? r = w.wait? r := fun r => by
    rcases World.engine_setEngine_or w r.mw i f with he | ⟨rfl, -, he⟩
    · simp only [World.wait?, he]
    · simp only [World.wait?, he, hw]
  have hbus : ∀ j, ((w.setEngine i f).engine j).bus = (w.engine j).bus := fun j => by
    rcases World.engine_setEngine_or w j i f with he | ⟨rfl, -, he⟩
    · rw [he]
    · rw [he, hb]
  have hjoin : ∀ j t, (w.setEngine i f).joiners j t = w.joiners j t := fun j t => by
    rcases World.engine_setEngine_or w j i f with he | ⟨rfl, -, he⟩
    · simp only [World.joiners, World.task?, he]
    · simp only [World.joiners, World.task?, he, ht]
  have hs : w.Shrinks (w.setEngine i f) :=
    .setEngine (by rw [hw]; exact fun _ h => h) (hb ▸ .refl _)
      (by exact Nat.le_of_eq (by rw [hb])) (fun t => ht ▸ .refl _)
  have hreg : ∀ {r k}, w.Registered r k → (w.setEngine i f).Registered r k := fun hr => by
    cases hr with
    | bus ht he => exact .bus (by rwa [hbus]) he
    | channel hc ht hs => exact .channel hc ht hs
    | call hd hl => exact .call hd hl
    | join hj => exact .join (by rwa [hjoin])
  have howes : ∀ {r}, w.Alive r.mw → (Owes ⟨F', w.setEngine i f⟩ r ↔ Owes ⟨F, w⟩ r) := by
    rintro ⟨j, x⟩ ha
    by_cases hj : j = i
    · subst hj
      simp only [Owes, World.engine_setEngine ha.has]
      exact ho
    · simp only [Owes, (World.untouched_setEngine hj f).engine, ho' (r := ⟨j, x⟩) hj]
  refine h.shrink hs ⟨h.timed.armed, h.timed.timer, h.timed.next, h.timed.named⟩ htag
    (fun _ _ hc => (World.claims_congr (hwait _)).2 hc) (fun ha _ => (howes (hs.alive ha)).1) ?_ ?_
  · rintro r ha ⟨x, hx, hr⟩
    exact ⟨hm x hx r hr, (howes (hs.alive ha)).1⟩
  · intro r t k _ ha _ hr
    rw [howes (hs.alive ha)]
    exact hr.imp_left hreg

end SagaMachine
