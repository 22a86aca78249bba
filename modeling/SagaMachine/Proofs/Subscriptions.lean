import SagaMachine.Proofs.Releases

/-!
# New registrations

An effect that is left pending is registered in the same step, or its settlement is on the way
already. Nobody else's registration is touched, unless two calls wait for one deferred.

Main statements: `Config.Wired.claim`, `Config.Wired.suspend`.
-/

namespace SagaMachine

/-- A new number that is larger than all others is a different one. -/
theorem nodup_map_concat {α : Type} {f : α → Nat} {as : List α} {b : α} (h : (as.map f).Nodup)
    (hb : ∀ a ∈ as, f a < f b) : ((as ++ [b]).map f).Nodup := by
  rw [List.map_append, List.nodup_append]
  refine ⟨h, by simp, ?_⟩
  intro n hn m hm hnm
  obtain ⟨a, ha, rfl⟩ := List.mem_map.1 hn
  have hlt := hb a ha
  rw [List.map_singleton, List.mem_singleton] at hm
  rw [hnm, hm] at hlt
  exact Nat.lt_irrefl _ hlt

/-- Whatever has a smaller number than the last one was there before. -/
theorem mem_of_mem_concat {α : Type} {f : α → Nat} {as : List α} {a b : α} (ha : a ∈ as ++ [b])
    (hlt : f a < f b) : a ∈ as := by
  rw [List.mem_append, List.mem_singleton] at ha
  rcases ha with ha | rfl
  · exact ha
  · exact absurd hlt (Nat.lt_irrefl _)

/-- Only the last one has the new number. -/
theorem eq_of_mem_concat {α : Type} {f : α → Nat} {as : List α} {a b : α}
    (h : ∀ a ∈ as, f a < f b) (ha : a ∈ as ++ [b]) (he : f a = f b) : a = b := by
  rw [List.mem_append, List.mem_singleton] at ha
  rcases ha with ha | rfl
  · exact absurd (he ▸ h a ha) (Nat.lt_irrefl _)
  · rfl

/-- An effect that nothing is known of yet. -/
structure Config.New (c : Config) (r : EffectRef) : Prop where
  claims : ∀ t k, ¬ c.world.Claims r t k
  owes : ¬ c.Owes r
  makes : ¬ c.Makes r

namespace World

variable {w : World} {i : MiddlewareId} {x : EffectId}

theorem claims_insertWait (hi : w.Has i) {wait : Wait} {r : EffectRef} {t : TaskId} {k : WaitKind} :
    (w.insertWait i x wait).Claims r t k ↔
      r = ⟨i, x⟩ ∧ wait.task = t ∧ wait.kind = k ∧ k.IsLeaf ∨ r ≠ ⟨i, x⟩ ∧ w.Claims r t k := by
  have he : (w.insertWait i x wait).engine i =
      { w.engine i with waits := (w.engine i).waits.insert x wait } := engine_setEngine hi _
  obtain ⟨j, y⟩ := r
  by_cases hj : j = i
  · subst hj
    by_cases hy : y = x
    · subst hy
      have hwait : (w.insertWait j y wait).wait? ⟨j, y⟩ = some wait := by
        simp [World.wait?, he]
      constructor
      · rintro ⟨hl, link, hw⟩
        rw [hwait] at hw
        cases hw
        exact Or.inl ⟨rfl, rfl, rfl, hl⟩
      · rintro (⟨-, rfl, rfl, hl⟩ | ⟨hne, -⟩)
        · exact ⟨hl, wait.link, hwait⟩
        · exact absurd rfl hne
    · have hne : (⟨j, y⟩ : EffectRef) ≠ ⟨j, x⟩ := fun h => hy (by cases h; rfl)
      rw [claims_congr (w := w) (by simp [World.wait?, he, hy])]
      simp [hne]
  · have hne : (⟨j, y⟩ : EffectRef) ≠ ⟨i, x⟩ := fun h => hj (by cases h; rfl)
    rw [claims_congr (w := w)
      (by simp only [World.wait?, insertWait, (untouched_setEngine hj _).engine])]
    simp [hne]

/-- If a new effect is to wait for something, nobody else claims more or less than before. -/
theorem claims_insertWait_new {w' : World} {link : Link} {t : TaskId} {k : WaitKind}
    (hi : w'.Has i) (hw : ∀ {s u l}, w'.Claims s u l ↔ w.Claims s u l)
    (hnew : ∀ u l, ¬ w.Claims ⟨i, x⟩ u l) (hk : k.IsLeaf) {s : EffectRef} {u : TaskId}
    {l : WaitKind} : (w'.insertWait i x ⟨t, link, k⟩).Claims s u l ↔
      s = ⟨i, x⟩ ∧ u = t ∧ l = k ∨ w.Claims s u l := by
  rw [claims_insertWait hi, hw]
  constructor
  · rintro (⟨hs, hu, hl, -⟩ | ⟨-, hc⟩)
    · exact Or.inl ⟨hs, hu.symm, hl.symm⟩
    · exact Or.inr hc
  · rintro (⟨hs, hu, rfl⟩ | hc)
    · exact Or.inl ⟨hs, hu.symm, rfl, hk⟩
    · exact Or.inr ⟨fun hs => hnew u l (hs ▸ hc), hc⟩

/-- Only the task table changes. -/
theorem engine_setTask (w : World) (i j : MiddlewareId) (t : TaskId) (f : TaskNode → TaskNode) :
    (w.setTask i t f).engine j =
      { w.engine j with tasks := ((w.setTask i t f).engine j).tasks } := by
  have key : ∀ g : Engine → Tasks, (w.setEngine i fun e => { e with tasks := g e }).engine j =
      { w.engine j with
        tasks := ((w.setEngine i fun e => { e with tasks := g e }).engine j).tasks } := by
    intro g
    rcases engine_setEngine_or w j i (fun e => { e with tasks := g e }) with he | ⟨rfl, -, he⟩
    · rw [he]
    · rw [he]
  exact key fun e => e.tasks.modify t f

/-- Only the wait table changes. -/
theorem engine_insertWait (w : World) (i j : MiddlewareId) (x : EffectId) (wait : Wait) :
    (w.insertWait i x wait).engine j =
      { w.engine j with waits := ((w.insertWait i x wait).engine j).waits } := by
  rcases engine_setEngine_or w j i (fun e => { e with waits := e.waits.insert x wait }) with
    he | ⟨rfl, -, he⟩
  · rw [insertWait, he]
  · rw [insertWait, he]

/-- A taker has joined a bus under a new number; all other registrations are as they were. -/
structure JoinsBus (w w' : World) (i : MiddlewareId) (b : BusTaker) : Prop where
  takers : (w'.engine i).bus.takers = (w.engine i).bus.takers ++ [b]
  number : b.id = (w.engine i).bus.nextTaker
  next : (w'.engine i).bus.nextTaker = b.id + 1
  others : ∀ {j}, j ≠ i → (w'.engine j).bus = (w.engine j).bus
  joiners : ∀ j u, w'.joiners j u = w.joiners j u
  channels : w'.channels = w.channels
  deferreds : w'.deferreds = w.deferreds

namespace JoinsBus

variable {w' : World} {j : MiddlewareId} {b a : BusTaker}

theorem mem_iff (h : w.JoinsBus w' i b) :
    a ∈ (w'.engine j).bus.takers ↔ j = i ∧ a = b ∨ a ∈ (w.engine j).bus.takers := by
  by_cases hj : j = i
  · subst hj
    simp [h.takers, or_comm]
  · simp [h.others hj, hj]

theorem next_le (h : w.JoinsBus w' i b) (j : MiddlewareId) :
    (w.engine j).bus.nextTaker ≤ (w'.engine j).bus.nextTaker := by
  by_cases hj : j = i
  · subst hj
    rw [h.next, h.number]
    exact Nat.le_succ _
  · exact Nat.le_of_eq (by rw [h.others hj])

theorem registered_iff (h : w.JoinsBus w' i b) {s : EffectRef} {l : WaitKind} :
    w'.Registered s l ↔ s = ⟨i, b.effect⟩ ∧ l = .take .bus b.id ∨ w.Registered s l := by
  constructor
  · intro hr
    cases hr with
    | bus hm he =>
      rcases h.mem_iff.1 hm with ⟨hj, rfl⟩ | hm
      · obtain ⟨j, y⟩ := s
        cases hj
        cases he
        exact Or.inl ⟨rfl, rfl⟩
      · exact Or.inr (.bus hm he)
    | channel hc hm hs => exact Or.inr (.channel (h.channels ▸ hc) hm hs)
    | call hd hl => exact Or.inr (.call (h.deferreds ▸ hd) hl)
    | join hj => exact Or.inr (.join (h.joiners _ _ ▸ hj))
  · rintro (⟨rfl, rfl⟩ | hr)
    · exact .bus (h.mem_iff.2 (Or.inl ⟨rfl, rfl⟩)) rfl
    · cases hr with
      | bus hm he => exact .bus (h.mem_iff.2 (Or.inr hm)) he
      | channel hc hm hs => exact .channel (h.channels ▸ hc) hm hs
      | call hd hl => exact .call (h.deferreds ▸ hd) hl
      | join hj => exact .join (h.joiners _ _ ▸ hj)

/-- The numbers are in order if the new taker is that of a new effect. -/
theorem numbered (h : w.JoinsBus w' i b) (hn : w.Numbered)
    (claims : ∀ {s u l}, w'.Claims s u l ↔
      s = ⟨i, b.effect⟩ ∧ u = b.owner ∧ l = .take .bus b.id ∨ w.Claims s u l)
    (hnew : ∀ u l, ¬ w.Claims ⟨i, b.effect⟩ u l) (hfree : ∀ l, ¬ w.Registered ⟨i, b.effect⟩ l) :
    w'.Numbered := by
  have hold : ∀ a ∈ (w.engine i).bus.takers, a.id < b.id := fun a hm => h.number ▸ hn.busNext hm
  refine ⟨fun j => ?_, fun {j a} hm => ?_, fun {j a u l} hm hcl => ?_, fun {s u id} hcl => ?_,
    fun hc => hn.channel (h.channels ▸ hc), fun hc => hn.channelNext (h.channels ▸ hc),
    fun hc => hn.closed (h.channels ▸ hc), fun {s u c id channel} hcl hc => ?_, fun j u => ?_,
    fun hd => hn.unsettled (h.deferreds ▸ hd)⟩
  · by_cases hj : j = i
    · subst hj
      rw [h.takers]
      exact nodup_map_concat (hn.bus j) hold
    · rw [h.others hj]
      exact hn.bus j
  · rcases h.mem_iff.1 hm with ⟨rfl, rfl⟩ | hm
    · rw [h.next]
      exact Nat.lt_succ_self _
    · exact Nat.lt_of_lt_of_le (hn.busNext hm) (h.next_le j)
  · rcases h.mem_iff.1 hm with ⟨rfl, rfl⟩ | hm'
    · rcases claims.1 hcl with ⟨-, rfl, -⟩ | hcl
      · rfl
      · exact absurd hcl (hnew u l)
    · rcases claims.1 hcl with ⟨heq, -, -⟩ | hcl
      · obtain ⟨rfl, heff⟩ := EffectRef.mk.inj heq
        exact absurd (.bus hm' heff) (hfree (.take .bus a.id))
      · exact hn.owner hm' hcl
  · rcases claims.1 hcl with ⟨rfl, -, hk⟩ | hcl
    · cases hk
      refine ⟨by rw [h.next]; exact Nat.lt_succ_self _, fun a hm hida => ?_⟩
      rw [eq_of_mem_concat hold (h.takers ▸ hm) hida]
    · obtain ⟨hlt, hall⟩ := hn.onBus hcl
      refine ⟨Nat.lt_of_lt_of_le hlt (h.next_le _), fun a hm hida => ?_⟩
      rcases h.mem_iff.1 hm with ⟨hj, rfl⟩ | hm
      · rw [← hida, h.number, hj] at hlt
        exact absurd hlt (Nat.lt_irrefl _)
      · exact hall a hm hida
  · rcases claims.1 hcl with ⟨-, -, hk⟩ | hcl
    · cases hk
    · exact hn.onChannel hcl (h.channels ▸ hc)
  · rw [h.joiners]
    exact hn.joiners j u

end JoinsBus

/-- A taker has joined a channel under a new number; all other registrations are as they were. -/
structure JoinsChannel (w w' : World) (c : ChannelId) (channel channel' : Channel Sink)
    (b : Taker Sink) : Prop where
  before : w.channels.get? c = some channel
  after : w'.channels.get? c = some channel'
  takers : channel'.takers = channel.takers ++ [b]
  number : b.id = channel.nextTaker
  next : channel'.nextTaker = b.id + 1
  unclosed : channel'.closed = false
  others : ∀ {d}, d ≠ c → w'.channels.get? d = w.channels.get? d
  buses : ∀ j, (w'.engine j).bus = (w.engine j).bus
  joiners : ∀ j u, w'.joiners j u = w.joiners j u
  deferreds : w'.deferreds = w.deferreds

namespace JoinsChannel

variable {w' : World} {c d : ChannelId} {channel channel' ch : Channel Sink} {b a : Taker Sink}

/-- What a channel is now: the one that was joined, or one that is as it was. -/
theorem get?_cases (h : w.JoinsChannel w' c channel channel' b) (hd : w'.channels.get? d = some ch) :
    d = c ∧ ch = channel' ∨ d ≠ c ∧ w.channels.get? d = some ch := by
  by_cases hdc : d = c
  · subst hdc
    exact Or.inl ⟨rfl, Option.some.inj (hd.symm.trans h.after)⟩
  · exact Or.inr ⟨hdc, h.others hdc ▸ hd⟩

/-- Where a taker was before. -/
theorem mem_cases (h : w.JoinsChannel w' c channel channel' b) (hd : w'.channels.get? d = some ch)
    (hm : a ∈ ch.takers) : d = c ∧ a = b ∨
      ∃ ch', w.channels.get? d = some ch' ∧ a ∈ ch'.takers ∧ ch'.nextTaker ≤ ch.nextTaker := by
  rcases h.get?_cases hd with ⟨rfl, rfl⟩ | ⟨-, hd⟩
  · rw [h.takers, List.mem_append, List.mem_singleton] at hm
    rcases hm with hm | hm
    · exact Or.inr ⟨channel, h.before, hm, by rw [h.next, h.number]; exact Nat.le_succ _⟩
    · exact Or.inl ⟨rfl, hm⟩
  · exact Or.inr ⟨ch, hd, hm, Nat.le_refl _⟩

/-- A number that was given out names the same takers as before. -/
theorem given_out (h : w.JoinsChannel w' c channel channel' b) {id : TakerId} {P : Taker Sink → Prop}
    (hd : w.channels.get? d = some ch)
    (hid : id < ch.nextTaker ∧ ∀ a ∈ ch.takers, a.id = id → P a) :
    ∃ ch', w'.channels.get? d = some ch' ∧ id < ch'.nextTaker ∧
      ∀ a ∈ ch'.takers, a.id = id → P a := by
  obtain ⟨hlt, hall⟩ := hid
  by_cases hdc : d = c
  · subst hdc
    cases h.before.symm.trans hd
    refine ⟨channel', h.after, by rw [h.next, h.number]; exact Nat.lt_succ_of_lt hlt,
      fun a hm hida => hall a ?_ hida⟩
    exact mem_of_mem_concat (h.takers ▸ hm) (h.number ▸ hida ▸ hlt)
  · exact ⟨ch, (h.others hdc).trans hd, hlt, hall⟩

theorem registered_iff (h : w.JoinsChannel w' c channel channel' b) {r : EffectRef}
    (hsink : b.sink = .effect r) {s : EffectRef} {l : WaitKind} :
    w'.Registered s l ↔ s = r ∧ l = .take (.channel c) b.id ∨ w.Registered s l := by
  constructor
  · intro hr
    cases hr with
    | bus hm hef => exact Or.inr (.bus (h.buses _ ▸ hm) hef)
    | channel hd hm hsk =>
      rcases h.mem_cases hd hm with ⟨rfl, rfl⟩ | ⟨ch', hd', hm, -⟩
      · rw [hsink] at hsk
        cases hsk
        exact Or.inl ⟨rfl, rfl⟩
      · exact Or.inr (.channel hd' hm hsk)
    | call hd hl => exact Or.inr (.call (h.deferreds ▸ hd) hl)
    | join hj => exact Or.inr (.join (h.joiners _ _ ▸ hj))
  · rintro (⟨rfl, rfl⟩ | hr)
    · exact .channel h.after (by rw [h.takers]; simp) hsink
    · cases hr with
      | bus hm hef => exact .bus (h.buses _ ▸ hm) hef
      | @channel d ch a hd hm hsk =>
        by_cases hdc : d = c
        · subst hdc
          cases h.before.symm.trans hd
          exact .channel h.after (by rw [h.takers]; exact List.mem_append_left _ hm) hsk
        · exact .channel ((h.others hdc).trans hd) hm hsk
      | call hd hl => exact .call (h.deferreds ▸ hd) hl
      | join hj => exact .join (h.joiners _ _ ▸ hj)

/-- The numbers are in order if the new taker is that of a new effect. -/
theorem numbered (h : w.JoinsChannel w' c channel channel' b) (hn : w.Numbered) {r : EffectRef}
    {t : TaskId} (hsink : b.sink = .effect r)
    (claims : ∀ {s u l}, w'.Claims s u l ↔
      s = r ∧ u = t ∧ l = .take (.channel c) b.id ∨ w.Claims s u l)
    (hfree : ∀ l, ¬ w.Registered r l) : w'.Numbered := by
  have hold : ∀ a ∈ channel.takers, a.id < b.id := fun a hm => h.number ▸ hn.channelNext h.before hm
  refine ⟨fun j => ?_, fun {j a} hm => ?_, fun {j a u l} hm hcl => ?_, fun {s u id} hcl => ?_,
    fun {d ch} hd => ?_, fun {d ch a} hd hm => ?_, fun {d ch} hd hcl => ?_,
    fun {s u d id ch} hcl hd => ?_, fun j u => ?_, fun hd => hn.unsettled (h.deferreds ▸ hd)⟩
  · rw [h.buses]
    exact hn.bus j
  · rw [h.buses] at hm ⊢
    exact hn.busNext hm
  · rw [h.buses] at hm
    rcases claims.1 hcl with ⟨rfl, -, -⟩ | hcl
    · exact absurd (.bus hm rfl) (hfree (.take .bus a.id))
    · exact hn.owner hm hcl
  · rcases claims.1 hcl with ⟨-, -, hk⟩ | hcl
    · cases hk
    · rw [h.buses]
      exact hn.onBus hcl
  · rcases h.get?_cases hd with ⟨rfl, rfl⟩ | ⟨-, hd⟩
    · rw [h.takers]
      exact nodup_map_concat (hn.channel h.before) hold
    · exact hn.channel hd
  · rcases h.mem_cases hd hm with ⟨rfl, rfl⟩ | ⟨ch', hd', hm, hle⟩
    · cases h.after.symm.trans hd
      rw [h.next]
      exact Nat.lt_succ_self _
    · exact Nat.lt_of_lt_of_le (hn.channelNext hd' hm) hle
  · rcases h.get?_cases hd with ⟨rfl, rfl⟩ | ⟨-, hd⟩
    · rw [h.unclosed] at hcl
      cases hcl
    · exact hn.closed hd hcl
  · rcases claims.1 hcl with ⟨rfl, -, hk⟩ | hcl
    · cases hk
      cases h.after.symm.trans hd
      refine ⟨by rw [h.next]; exact Nat.lt_succ_self _, fun a hm hida => ?_⟩
      rw [eq_of_mem_concat hold (h.takers ▸ hm) hida]
      exact hsink
    · rcases h.get?_cases hd with ⟨rfl, rfl⟩ | ⟨-, hd⟩
      · obtain ⟨ch, hch, hall⟩ := h.given_out h.before (hn.onChannel hcl h.before)
        cases h.after.symm.trans hch
        exact hall
      · exact hn.onChannel hcl hd
  · rw [h.joiners]
    exact hn.joiners j u

end JoinsChannel

end World

namespace Config

variable {A : Prop} {w w' : World} {F : List Instr} {i : MiddlewareId} {x : EffectId} {t : TaskId}
  {r : EffectRef} {k : WaitKind}

theorem New.unregistered (hnew : New ⟨F, w⟩ r) (h : Wired A ⟨F, w⟩) (ha : w.Alive r.mw) :
    ¬ w.Registered r k := fun hr => by
  obtain ⟨t, hc⟩ := (h.fits ha).backed hr
  exact hnew.claims t k hc

namespace Wired

/-- A new effect is pending, and registered with what it waits for. -/
theorem claim (h : Wired A ⟨F, w⟩) (hnew : New ⟨F, w⟩ r) (alive : ∀ {j}, w'.Alive j → w.Alive j)
    (hn : w'.Numbered) (ht : w'.Timed) (hs : A → w'.Sole)
    (htag : ∀ {d id}, Tags ⟨F, w'⟩ d id → ∃ channel, w'.channels.get? d = some channel ∧
      id < channel.nextTaker ∧ ∀ b ∈ channel.takers, b.id = id → ∀ r, b.sink ≠ .effect r)
    (claims : ∀ {s u l}, w'.Claims s u l ↔ s = r ∧ u = t ∧ l = k ∨ w.Claims s u l)
    (owes : ∀ {j y}, (w'.engine j).agenda.Owes y ↔ (w.engine j).agenda.Owes y)
    (old : ∀ {s l}, w'.Registered s l → s = r ∧ l = k ∨ w.Registered s l)
    (kept : ∀ {s l}, l.Assured A → w'.Alive s.mw → w.Registered s l → w'.Registered s l)
    (here : w'.Registered r k) : Wired A ⟨F, w'⟩ where
  numbered := hn
  timed := ht
  tagged := htag
  sole := hs
  fits {s} ha := by
    have hf := h.fits (alive ha)
    have ho : Owes ⟨F, w'⟩ s ↔ Owes ⟨F, w⟩ s := by simp only [Owes, owes]
    refine ⟨fun hr => ?_, fun hr => ?_, fun hm => ⟨fun u l hc => ?_, ?_⟩, fun {u l} hA hc => ?_⟩
    · rcases old hr with ⟨rfl, rfl⟩ | hr
      · exact ⟨t, claims.2 (Or.inl ⟨rfl, rfl, rfl⟩)⟩
      · obtain ⟨u, hc⟩ := hf.backed hr
        exact ⟨u, claims.2 (Or.inr hc)⟩
    · rw [ho]
      rcases old hr with ⟨rfl, rfl⟩ | hr
      · exact hnew.owes
      · exact hf.silent hr
    · rcases claims.1 hc with ⟨rfl, -, -⟩ | hc
      · exact hnew.makes hm
      · exact (hf.making hm).1 u l hc
    · rw [ho]
      exact (hf.making hm).2
    · rcases claims.1 hc with ⟨rfl, rfl, rfl⟩ | hc
      · exact Or.inl here
      · rw [ho]
        exact (hf.served hA hc).imp_left (kept hA ha)

/-- Nothing changes about channels. -/
theorem tagged_congr (h : Wired A ⟨F, w⟩) (hc : w'.channels = w.channels)
    (ht : w'.takerTags = w.takerTags) {d : ChannelId} {id : TakerId} (hd : Tags ⟨F, w'⟩ d id) :
    ∃ channel, w'.channels.get? d = some channel ∧
      id < channel.nextTaker ∧ ∀ b ∈ channel.takers, b.id = id → ∀ r, b.sink ≠ .effect r := by
  rw [hc]
  refine h.tagged ?_
  rcases hd with ⟨tag, hd⟩ | hd
  · exact Or.inl ⟨tag, ht ▸ hd⟩
  · exact Or.inr hd

theorem sole_of_claims (h : Wired A ⟨F, w⟩) (hk : ∀ d, k ≠ .call d)
    (claims : ∀ {s u l}, w'.Claims s u l → s = r ∧ u = t ∧ l = k ∨ w.Claims s u l) :
    A → w'.Sole := by
  intro hA s s' u u' d h1 h2
  rcases claims h1 with ⟨-, -, hd⟩ | h1
  · exact absurd hd.symm (hk d)
  · rcases claims h2 with ⟨-, -, hd⟩ | h2
    · exact absurd hd.symm (hk d)
    · exact h.sole hA h1 h2

/-- An effect waits for an action. -/
theorem claimBus (h : Wired A ⟨F, w⟩) (ha : w.Alive i) (hnew : New ⟨F, w⟩ ⟨i, x⟩) (bus : Bus)
    {b : BusTaker} (hb : bus.takers = (w.engine i).bus.takers ++ [b])
    (hid : b.id = (w.engine i).bus.nextTaker) (hnext : bus.nextTaker = b.id + 1)
    (heff : b.effect = x) (hown : b.owner = t) (link : Link) :
    Wired A ⟨F, (w.setEngine i fun e => { e with bus }).insertWait i x
      ⟨t, link, .take .bus b.id⟩⟩ := by
  subst heff hown
  set w₁ := w.setEngine i fun e => { e with bus } with hw₁
  set w₂ := w₁.insertWait i b.effect ⟨b.owner, link, .take .bus b.id⟩ with hw₂
  have hi₁ : w₁.Has i := by
    rw [World.has_iff, hw₁, World.alive_setEngine, ← World.has_iff]
    exact ha.has
  have he : w₁.engine i = { w.engine i with bus } := World.engine_setEngine ha.has _
  have hne : ∀ {j}, j ≠ i → w₁.engine j = w.engine j :=
    fun hj => (World.untouched_setEngine hj _).engine
  have hsame : ∀ j, (w₂.engine j).tasks = (w.engine j).tasks ∧
      (w₂.engine j).agenda = (w.engine j).agenda := by
    intro j
    rw [hw₂, World.engine_insertWait]
    by_cases hj : j = i
    · subst hj
      rw [he]
      exact ⟨rfl, rfl⟩
    · rw [hne hj]
      exact ⟨rfl, rfl⟩
  have hbus : (w₂.engine i).bus = bus := by
    rw [hw₂, World.engine_insertWait, he]
  have hclaims₁ : ∀ {s u l}, w₁.Claims s u l ↔ w.Claims s u l := by
    intro s u l
    refine World.claims_congr ?_
    by_cases hj : s.mw = i
    · obtain ⟨j, y⟩ := s
      cases hj
      simp only [World.wait?, he]
    · simp only [World.wait?, hne hj]
  have claims : ∀ {s u l}, w₂.Claims s u l ↔
      s = ⟨i, b.effect⟩ ∧ u = b.owner ∧ l = .take .bus b.id ∨ w.Claims s u l :=
    World.claims_insertWait_new (k := .take .bus b.id) hi₁ hclaims₁ hnew.claims trivial
  have halive : ∀ {j}, w₂.Alive j → w.Alive j := fun ha => by
    rwa [World.Alive, hw₂, World.insertWait, World.alive_setEngine, hw₁, World.alive_setEngine] at ha
  have hjoins : w.JoinsBus w₂ i b :=
    { takers := hbus ▸ hb
      number := hid
      next := hbus ▸ hnext
      others := fun hj => by rw [hw₂, World.engine_insertWait, hne hj]
      joiners := fun j u => by simp only [World.joiners, World.task?, (hsame j).1]
      channels := rfl
      deferreds := rfl }
  exact h.claim hnew halive
    (hjoins.numbered h.numbered claims hnew.claims fun l => hnew.unregistered h ha)
    ⟨h.timed.armed, h.timed.timer, h.timed.next, h.timed.named⟩
    (h.sole_of_claims (fun d hd => by cases hd) claims.1) (fun hd => h.tagged_congr rfl rfl hd) claims
    (fun {j y} => by rw [(hsame j).2]) hjoins.registered_iff.1
    (fun _ _ hr => hjoins.registered_iff.2 (Or.inr hr))
    (hjoins.registered_iff.2 (Or.inl ⟨rfl, rfl⟩))

/-- An effect waits for a value of a channel. -/
theorem claimChannel (h : Wired A ⟨F, w⟩) (ha : w.Alive i) (hnew : New ⟨F, w⟩ ⟨i, x⟩)
    {c : ChannelId} {channel : Channel Sink} (hc : w.channels.get? c = some channel)
    (channel' : Channel Sink) {b : Taker Sink} (hb : channel'.takers = channel.takers ++ [b]) (hid : b.id = channel.nextTaker)
    (hnext : channel'.nextTaker = b.id + 1) (hcl : channel'.closed = false)
    (hsink : b.sink = .effect ⟨i, x⟩) (link : Link) :
    Wired A ⟨F, { w with channels := w.channels.insert c channel' }.insertWait i x
      ⟨t, link, .take (.channel c) b.id⟩⟩ := by
  set w₂ := { w with channels := w.channels.insert c channel' }.insertWait i x
    ⟨t, link, .take (.channel c) b.id⟩ with hw₂
  have he : ∀ j, w₂.engine j = { w.engine j with waits := (w₂.engine j).waits } := fun j => by
    rw [hw₂, World.engine_insertWait]
    rfl
  have hi₁ : World.Has { w with channels := w.channels.insert c channel' } i := ha.has
  have claims : ∀ {s u l}, w₂.Claims s u l ↔
      s = ⟨i, x⟩ ∧ u = t ∧ l = .take (.channel c) b.id ∨ w.Claims s u l :=
    World.claims_insertWait_new (w := w) (k := .take (.channel c) b.id) hi₁
      (World.claims_congr rfl) hnew.claims trivial
  have halive : ∀ {j}, w₂.Alive j → w.Alive j := fun ha => by
    rwa [World.Alive, hw₂, World.insertWait, World.alive_setEngine] at ha
  have hjoins : w.JoinsChannel w₂ c channel channel' b :=
    { before := hc
      after := (Table.get?_insert w.channels c c channel').trans (if_pos rfl)
      takers := hb
      number := hid
      next := hnext
      unclosed := hcl
      others := fun hd => (Table.get?_insert w.channels c _ channel').trans (if_neg hd)
      buses := fun j => by rw [he]
      joiners := fun j u => by
        simp only [World.joiners, World.task?]
        rw [he]
      deferreds := rfl }
  refine h.claim hnew halive
    (hjoins.numbered h.numbered hsink claims fun l => hnew.unregistered h ha)
    ⟨h.timed.armed, h.timed.timer, h.timed.next, h.timed.named⟩
    (h.sole_of_claims (fun d hd => by cases hd) claims.1) (fun {d id} hd => ?_) claims
    (fun {j y} => by rw [he]) (hjoins.registered_iff hsink).1
    (fun _ _ hr => (hjoins.registered_iff hsink).2 (Or.inr hr))
    ((hjoins.registered_iff hsink).2 (Or.inl ⟨rfl, rfl⟩))
  obtain ⟨ch, hch, hall⟩ := h.tagged hd
  exact hjoins.given_out hch hall

/-- An effect joins on a task. -/
theorem claimJoin (h : Wired A ⟨F, w⟩) (ha : w.Alive i) (hnew : New ⟨F, w⟩ ⟨i, x⟩)
    (hlast : ∀ u, ∀ y ∈ w.joiners i u, y < x) {u : TaskId} {n : TaskNode} (hu : w.task? i u = some n) (link : Link) :
    Wired A ⟨F, (w.setTask i u fun n => { n with joiners := n.joiners ++ [x] }).insertWait i x
      ⟨t, link, .join u⟩⟩ := by
  set w₁ := w.setTask i u fun n => { n with joiners := n.joiners ++ [x] } with hw₁
  set w₂ := w₁.insertWait i x ⟨t, link, .join u⟩ with hw₂
  have hi₁ : w₁.Has i := by
    rw [World.has_iff, hw₁, World.setTask, World.alive_setEngine, ← World.has_iff]
    exact ha.has
  have he₁ : ∀ j, w₁.engine j = { w.engine j with tasks := (w₁.engine j).tasks } :=
    fun j => World.engine_setTask ..
  have hsame : ∀ j, (w₂.engine j).bus = (w.engine j).bus ∧
      (w₂.engine j).agenda = (w.engine j).agenda := by
    intro j
    rw [hw₂, World.engine_insertWait, he₁]
    exact ⟨rfl, rfl⟩
  have hjoin : ∀ j v, w₂.joiners j v = if j = i ∧ v = u then w.joiners j v ++ [x] else w.joiners j v := by
    intro j v
    have h2 : w₂.task? j v = w₁.task? j v := by
      rw [World.task?, hw₂, World.engine_insertWait]
      rfl
    simp only [World.joiners, h2]
    by_cases hj : j = i
    · subst hj
      simp only [World.task?, hw₁, World.setTask, World.engine_setEngine ha.has, Table.get?_modify,
        true_and]
      split
      · rename_i hv
        subst hv
        rw [show (w.engine j).tasks.get? v = some n from hu]
        rfl
      · rfl
    · simp only [World.task?, hw₁, World.setTask, (World.untouched_setEngine hj _).engine, hj,
        false_and, if_false]
  have claims : ∀ {s v l}, w₂.Claims s v l ↔ s = ⟨i, x⟩ ∧ v = t ∧ l = .join u ∨ w.Claims s v l :=
    World.claims_insertWait_new (w := w) (k := .join u) hi₁
      (World.claims_congr (by simp only [World.wait?]; rw [he₁])) hnew.claims trivial
  have hmem : ∀ {j v y}, y ∈ w₂.joiners j v → j = i ∧ v = u ∧ y = x ∨ y ∈ w.joiners j v := by
    intro j v y hy
    rw [hjoin] at hy
    split at hy
    · rename_i hjv
      rw [List.mem_append, List.mem_singleton] at hy
      exact hy.symm.imp_left fun hy => ⟨hjv.1, hjv.2, hy⟩
    · exact Or.inr hy
  have hkeep : ∀ {j v y}, y ∈ w.joiners j v → y ∈ w₂.joiners j v := by
    intro j v y hy
    rw [hjoin]
    split
    · exact List.mem_append_left _ hy
    · exact hy
  have hn : w₂.Numbered := by
    refine ⟨fun j => ?_, fun {j a} hm => ?_, fun {j a v l} hm hcl => ?_, fun {s v id} hcl => ?_,
      h.numbered.channel, h.numbered.channelNext, h.numbered.closed, fun {s v d id ch} hcl' hd => ?_,
      fun j v => ?_, h.numbered.unsettled⟩
    · rw [(hsame j).1]
      exact h.numbered.bus j
    · rw [(hsame j).1] at hm ⊢
      exact h.numbered.busNext hm
    · rw [(hsame j).1] at hm
      rcases claims.1 hcl with ⟨heq, -, -⟩ | hcl
      · cases heq
        exact absurd (.bus hm rfl) (hnew.unregistered h ha (k := .take .bus a.id))
      · exact h.numbered.owner hm hcl
    · rcases claims.1 hcl with ⟨-, -, hk⟩ | hcl
      · cases hk
      · rw [(hsame _).1]
        exact h.numbered.onBus hcl
    · rcases claims.1 hcl' with ⟨-, -, hk⟩ | hcl'
      · cases hk
      · exact h.numbered.onChannel hcl' hd
    · rw [hjoin]
      split
      · rename_i hjv
        obtain ⟨rfl, rfl⟩ := hjv
        refine List.pairwise_append.2 ⟨h.numbered.joiners j v, List.pairwise_singleton .., ?_⟩
        intro y hy z hz
        rw [List.mem_singleton.1 hz]
        exact hlast v y hy
      · exact h.numbered.joiners j v
  have halive : ∀ {j}, w₂.Alive j → w.Alive j := fun ha => by
    rwa [World.Alive, hw₂, World.insertWait, World.alive_setEngine, hw₁, World.setTask,
      World.alive_setEngine] at ha
  refine h.claim hnew halive hn ⟨h.timed.armed, h.timed.timer, h.timed.next, h.timed.named⟩
    (h.sole_of_claims (fun d hd => by cases hd) claims.1) (fun hd => h.tagged_congr rfl rfl hd) claims
    (fun {j y} => by rw [(hsame j).2]) ?_ ?_ (.join (by rw [hjoin, if_pos ⟨rfl, rfl⟩]; simp))
  · intro s l hr
    cases hr with
    | bus hm hef => exact Or.inr (.bus (by rwa [(hsame _).1] at hm) hef)
    | channel hd hm hsk => exact Or.inr (.channel hd hm hsk)
    | call hd hl => exact Or.inr (.call hd hl)
    | join hj =>
      rcases hmem hj with ⟨hsi, rfl, hsx⟩ | hj
      · obtain ⟨j, y⟩ := s
        cases hsi
        cases hsx
        exact Or.inl ⟨rfl, rfl⟩
      · exact Or.inr (.join hj)
  · intro s l _ _ hr
    cases hr with
    | bus hm hef => exact .bus (by rwa [(hsame _).1]) hef
    | channel hd hm hsk => exact .channel hd hm hsk
    | call hd hl => exact .call hd hl
    | join hj => exact .join (hkeep hj)

section Insert

variable {link : Link}

theorem claims_suspend (ha : w.Alive i) (hnew : New ⟨F, w⟩ ⟨i, x⟩) (hk : k.IsLeaf) {s : EffectRef}
    {v : TaskId} {l : WaitKind} : (w.insertWait i x ⟨t, link, k⟩).Claims s v l ↔
      s = ⟨i, x⟩ ∧ v = t ∧ l = k ∨ w.Claims s v l :=
  World.claims_insertWait_new ha.has .rfl hnew.claims hk

/-- The numbers are in order if an effect waits for something that has none. -/
theorem numbered_suspend (h : Wired A ⟨F, w⟩) (ha : w.Alive i) (hnew : New ⟨F, w⟩ ⟨i, x⟩)
    (hk : k.IsLeaf) (htake : ∀ source id, k ≠ .take source id) :
    (w.insertWait i x ⟨t, link, k⟩).Numbered := by
  set w₂ := w.insertWait i x ⟨t, link, k⟩ with hw₂
  have he : ∀ j, w₂.engine j = { w.engine j with waits := (w₂.engine j).waits } :=
    fun j => World.engine_insertWait ..
  have claims : ∀ {s v l}, w₂.Claims s v l ↔ s = ⟨i, x⟩ ∧ v = t ∧ l = k ∨ w.Claims s v l :=
    claims_suspend ha hnew hk
  have hbus : ∀ j, (w₂.engine j).bus = (w.engine j).bus := fun j => by rw [he]
  refine ⟨fun j => ?_, fun {j a} hm => ?_, fun {j a v l} hm hcl => ?_, fun {s v id} hcl => ?_,
    h.numbered.channel, h.numbered.channelNext, h.numbered.closed, fun {s v d id ch} hcl' hd => ?_,
    fun j v => ?_, h.numbered.unsettled⟩
  · rw [hbus]
    exact h.numbered.bus j
  · rw [hbus] at hm ⊢
    exact h.numbered.busNext hm
  · rw [hbus] at hm
    rcases claims.1 hcl with ⟨heq, -, -⟩ | hcl
    · cases heq
      exact absurd (.bus hm rfl) (hnew.unregistered h ha (k := .take .bus a.id))
    · exact h.numbered.owner hm hcl
  · rcases claims.1 hcl with ⟨-, -, hk⟩ | hcl
    · exact absurd hk.symm (htake _ _)
    · rw [hbus]
      exact h.numbered.onBus hcl
  · rcases claims.1 hcl' with ⟨-, -, hk⟩ | hcl'
    · exact absurd hk.symm (htake _ _)
    · exact h.numbered.onChannel hcl' hd
  · rw [World.joiners, World.task?, he]
    exact h.numbered.joiners j v

theorem registered_insertWait {s : EffectRef} {l : WaitKind} :
    (w.insertWait i x ⟨t, link, k⟩).Registered s l ↔ w.Registered s l := by
  have he := fun j => World.engine_insertWait w i j x ⟨t, link, k⟩
  constructor
  · intro hr
    cases hr with
    | bus hm hef => exact .bus (by rwa [he] at hm) hef
    | channel hd hm hsk => exact .channel hd hm hsk
    | call hd hl => exact .call hd hl
    | join hj => exact .join (by rwa [World.joiners, World.task?, he] at hj)
  · intro hr
    cases hr with
    | bus hm hef => exact .bus (by rwa [he]) hef
    | channel hd hm hsk => exact .channel hd hm hsk
    | call hd hl => exact .call hd hl
    | join hj => exact .join (by rwa [World.joiners, World.task?, he])

/-- An effect is left pending while its settlement is on its way already. -/
theorem suspend (h : Wired A ⟨F, w⟩) (ha : w.Alive i) (hnew : New ⟨F, w⟩ ⟨i, x⟩) {y : Instr}
    (hy : ∀ r, y.Settles r ↔ r = ⟨i, x⟩) (hym : ∀ r, ¬ y.Makes r) (hyt : ∀ c id, ¬ y.Tags c id)
    (hk : k.IsLeaf) (htake : ∀ source id, k ≠ .take source id)
    (hs : A → (w.insertWait i x ⟨t, link, k⟩).Sole) :
    Wired A ⟨y :: F, w.insertWait i x ⟨t, link, k⟩⟩ := by
  set w₂ := w.insertWait i x ⟨t, link, k⟩ with hw₂
  have he : ∀ j, w₂.engine j = { w.engine j with waits := (w₂.engine j).waits } :=
    fun j => World.engine_insertWait ..
  have claims : ∀ {s v l}, w₂.Claims s v l ↔ s = ⟨i, x⟩ ∧ v = t ∧ l = k ∨ w.Claims s v l :=
    claims_suspend ha hnew hk
  have ho : ∀ {s}, Owes ⟨y :: F, w₂⟩ s ↔ s = ⟨i, x⟩ ∨ Owes ⟨F, w⟩ s := by
    intro s
    rw [owes_cons, hy]
    simp only [Owes]
    rw [he]
  have hmk : ∀ {s}, Makes ⟨y :: F, w₂⟩ s → Makes ⟨F, w⟩ s := by
    rintro s ⟨z, hz, hm⟩
    rcases List.mem_cons.1 hz with rfl | hz
    · exact absurd hm (hym s)
    · exact ⟨z, hz, hm⟩
  refine ⟨h.numbered_suspend ha hnew hk htake,
    ⟨h.timed.armed, h.timed.timer, h.timed.next, h.timed.named⟩, fun {d id} hd => ?_, hs,
    fun {s} has => ?_⟩
  · refine h.tagged_congr rfl rfl (d := d) ?_
    rcases hd with hd | ⟨z, hz, hd⟩
    · exact Or.inl hd
    · rcases List.mem_cons.1 hz with rfl | hz
      · exact absurd hd (hyt d id)
      · exact Or.inr ⟨z, hz, hd⟩
  · have has' : w.Alive s.mw := by
      rwa [World.Alive, hw₂, World.insertWait, World.alive_setEngine] at has
    have hf := h.fits has'
    refine ⟨fun hr => ?_, fun hr => ?_, fun hm => ⟨fun u l hc => ?_, ?_⟩, fun {u l} hA hc => ?_⟩
    · obtain ⟨u, hc⟩ := hf.backed (registered_insertWait.1 hr)
      exact ⟨u, claims.2 (Or.inr hc)⟩
    · rw [ho]
      rintro (rfl | howe)
      · exact hnew.unregistered h ha (registered_insertWait.1 hr)
      · exact hf.silent (registered_insertWait.1 hr) howe
    · rcases claims.1 hc with ⟨rfl, -, -⟩ | hc
      · exact hnew.makes (hmk hm)
      · exact (hf.making (hmk hm)).1 u l hc
    · rw [ho]
      rintro (rfl | howe)
      · exact hnew.makes (hmk hm)
      · exact (hf.making (hmk hm)).2 howe
    · rw [ho]
      rcases claims.1 hc with ⟨rfl, -, -⟩ | hc
      · exact Or.inr (Or.inl rfl)
      · exact (hf.served hA hc).imp registered_insertWait.2 Or.inr

/-- An effect listens to a deferred that is not settled. -/
theorem listen (h : Wired A ⟨F, w⟩) (ha : w.Alive i) (hnew : New ⟨F, w⟩ ⟨i, x⟩) {d : DeferredId}
    (hm : w'.middlewares = (w.insertWait i x ⟨t, link, .call d⟩).middlewares)
    (hch : w'.channels = w.channels) (htags : w'.takerTags = w.takerTags)
    {deferred : Deferred EffectRef} (hd : w'.deferreds.get? d = some deferred)
    (hl : deferred.listener = some ⟨i, x⟩) (hopen : deferred.outcome = none)
    (hother : ∀ {e}, e ≠ d → w'.deferreds.get? e = w.deferreds.get? e) (ht : w'.Timed)
    (hs : A → w'.Sole) : Wired A ⟨F, w'⟩ := by
  set w₂ := w.insertWait i x ⟨t, link, .call d⟩ with hw₂
  have he : ∀ j, w'.engine j = w₂.engine j := fun j => by simp only [World.engine, hm]
  have he₂ : ∀ j, w₂.engine j = { w.engine j with waits := (w₂.engine j).waits } :=
    fun j => World.engine_insertWait ..
  have claims : ∀ {s v l}, w'.Claims s v l ↔ s = ⟨i, x⟩ ∧ v = t ∧ l = .call d ∨ w.Claims s v l := by
    intro s v l
    rw [World.claims_congr (w := w₂) (by simp only [World.wait?, he])]
    exact claims_suspend (k := .call d) ha hnew trivial
  have hbus : ∀ j, (w'.engine j).bus = (w.engine j).bus := fun j => by rw [he, he₂]
  have hjoin : ∀ j v, w'.joiners j v = w.joiners j v := fun j v => by
    simp only [World.joiners, World.task?]
    rw [he, he₂]
  have h₂ : (w.insertWait i x ⟨t, link, .call d⟩).Numbered :=
    h.numbered_suspend ha hnew trivial fun _ _ h => by cases h
  have hn : w'.Numbered := by
    refine ⟨fun j => ?_, fun {j a} hm => ?_, fun {j a v l} hm' hcl => ?_, fun {s v id} hcl => ?_,
      fun hc => ?_, fun hc => ?_, fun hc => ?_, fun {s v c id ch} hcl hc => ?_, fun j v => ?_,
      fun {e deferred' r} hde hle => ?_⟩
    · rw [he]
      exact h₂.bus j
    · rw [he] at hm ⊢
      exact h₂.busNext hm
    · rw [he] at hm'
      exact h₂.owner hm' (hcl.of_middlewares hm.symm)
    · rw [he]
      exact h₂.onBus (hcl.of_middlewares hm.symm)
    · exact h.numbered.channel (hch ▸ hc)
    · exact h.numbered.channelNext (hch ▸ hc)
    · exact h.numbered.closed (hch ▸ hc)
    · exact h₂.onChannel (hcl.of_middlewares hm.symm) (hch ▸ hc)
    · rw [hjoin]
      exact h.numbered.joiners j v
    · by_cases hed : e = d
      · subst hed
        cases hd.symm.trans hde
        exact hopen
      · rw [hother hed] at hde
        exact h.numbered.unsettled hde hle
  have halive : ∀ {j}, w'.Alive j → w.Alive j := fun {j} ha => by
    have : w'.alive? j = w₂.alive? j := by simp only [World.alive?, hm]
    rwa [World.Alive, this, hw₂, World.insertWait, World.alive_setEngine] at ha
  have hnew' : ∀ {s l}, w.Registered s l → w.Alive s.mw → s ≠ ⟨i, x⟩ := by
    rintro s l hr - rfl
    exact hnew.unregistered h ha hr
  refine h.claim hnew halive hn ht hs (fun htg => h.tagged_congr hch htags htg) claims
    (fun {j y} => by rw [he, he₂]) ?_ ?_ (.call hd hl)
  · intro s l hr
    cases hr with
    | bus hm' hef => exact Or.inr (.bus (by rwa [hbus] at hm') hef)
    | channel hc hm' hsk => exact Or.inr (.channel (hch ▸ hc) hm' hsk)
    | @call e deferred' hde hle =>
      by_cases hed : e = d
      · subst hed
        cases hd.symm.trans hde
        rw [hl] at hle
        cases hle
        exact Or.inl ⟨rfl, rfl⟩
      · rw [hother hed] at hde
        exact Or.inr (.call hde hle)
    | join hj => exact Or.inr (.join (by rwa [hjoin] at hj))
  · intro s l hA has hr
    cases hr with
    | bus hm' hef => exact .bus (by rwa [hbus]) hef
    | channel hc hm' hsk => exact .channel (by rwa [hch]) hm' hsk
    | @call e deferred' hde hle =>
      have hed : e ≠ d := by
        rintro rfl
        have hr : w.Registered s (.call e) := .call hde hle
        obtain ⟨u, hc⟩ := (h.fits (halive has)).backed hr
        have h1 : w'.Claims s u (.call e) := claims.2 (Or.inr hc)
        have h2 : w'.Claims ⟨i, x⟩ t (.call e) := claims.2 (Or.inl ⟨rfl, rfl, rfl⟩)
        exact hnew' hr (halive has) (hs (hA e rfl) h1 h2)
      exact .call ((hother hed).trans hde) hle
    | join hj => exact .join (by rwa [hjoin])

end Insert

end Wired

end Config

end SagaMachine
