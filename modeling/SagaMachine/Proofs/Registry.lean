import SagaMachine.Proofs.Withdrawals

/-!
# The registry

All that is registered in a world: the pending effects, the takers of the buses and of the
channels, the joiners of the tasks and the listeners of the deferreds, in their orders
(`World.registry`). What belongs to some effects only can be told from the rest
(`Registry.keep`), and a withdrawal takes away nothing of the rest.

Main statements: `Config.Wired.keep_registry`, `Config.Wired.keep_cancelWait`.
-/

namespace SagaMachine

/-- What is registered, and where. -/
@[ext]
structure Registry where
  waits : MiddlewareId → Waits
  takers : MiddlewareId → List BusTaker
  joiners : MiddlewareId → TaskId → List EffectId
  /-- The takers of a channel and its buffer. -/
  channels : ChannelId → Option (List (Taker Sink) × Buffer)
  listeners : DeferredId → Option EffectRef

/-- What is registered in a world. -/
def World.registry (w : World) : Registry where
  waits i := (w.engine i).waits
  takers i := (w.engine i).bus.takers
  joiners i t := w.joiners i t
  channels c := (w.channels.get? c).map fun channel => (channel.takers, channel.buffer)
  listeners d := (w.deferreds.get? d).bind (·.listener)

/-- Whether the deliveries to a sink go to an effect of some kind, or to user code. -/
def Sink.keeps (p : EffectRef → Bool) : Sink → Bool
  | .effect r => p r
  | .script .. => true

/-- What belongs to some effects, and what belongs to user code. -/
def Registry.keep (g : Registry) (p : EffectRef → Bool) : Registry where
  waits i := ⟨(g.waits i).entries.filter fun e => p ⟨i, e.1⟩⟩
  takers i := (g.takers i).filter fun t => p ⟨i, t.effect⟩
  joiners i t := (g.joiners i t).filter fun x => p ⟨i, x⟩
  channels c := (g.channels c).map fun l => (l.1.filter fun t => t.sink.keeps p, l.2)
  listeners d := (g.listeners d).filter p

section

variable {A : Prop} {w w' : World} {F : List Instr} {i : MiddlewareId} {p : EffectRef → Bool}
  {x : EffectId} {kind : WaitKind}

/-- Where only some effects are pending, whatever is registered belongs to them. -/
theorem Config.Wired.keep_registry (h : Wired A ⟨F, w⟩)
    (hp : ∀ r, p r = false → w.Alive r.mw ∧ w.wait? r = none) : w.registry.keep p = w.registry := by
  have hall : ∀ r, (∃ wait, w.wait? r = some wait) ∨ (∃ k, w.Registered r k) → p r = true := by
    intro r hr
    by_contra hpr
    obtain ⟨ha, hnone⟩ := hp r (Bool.eq_false_iff.2 hpr)
    have hwait : ∃ wait, w.wait? r = some wait := by
      rcases hr with hr | ⟨k, hk⟩
      · exact hr
      · obtain ⟨t, hclaims⟩ := (h.fits ha).backed hk
        obtain ⟨link, hw⟩ := hclaims.wait
        exact ⟨_, hw⟩
    obtain ⟨wait, hw⟩ := hwait
    cases hw.symm.trans hnone
  apply Registry.ext
  · funext j
    refine congrArg Table.mk (List.filter_eq_self.2 fun e he => ?_)
    exact hall _ (Or.inl (Table.mem_keys.1 (List.mem_map.2 ⟨e, he, rfl⟩)))
  · funext j
    exact List.filter_eq_self.2 fun t ht => hall _ (Or.inr ⟨_, .bus ht rfl⟩)
  · funext j u
    exact List.filter_eq_self.2 fun y hy => hall _ (Or.inr ⟨_, .join hy⟩)
  · funext c
    simp only [Registry.keep, World.registry, Option.map_map]
    cases hc : w.channels.get? c with
    | none => rfl
    | some channel =>
      have hkept : channel.takers.filter (fun t => t.sink.keeps p) = channel.takers := by
        refine List.filter_eq_self.2 fun t ht => ?_
        cases hs : t.sink with
        | effect r => exact hall r (Or.inr ⟨_, .channel hc ht hs⟩)
        | script => rfl
      exact congrArg (fun ts => some (ts, channel.buffer)) hkept
  · funext d
    simp only [Registry.keep, World.registry]
    cases hl : (w.deferreds.get? d).bind (·.listener) with
    | none => rfl
    | some r =>
      obtain ⟨deferred, hd, hl⟩ := Option.bind_eq_some_iff.1 hl
      simp [hall r (Or.inr ⟨_, .call hd hl⟩)]

end

/-! ## Tables -/

namespace Table

variable {κ α : Type} [DecidableEq κ] {t : Table κ α} {q : κ → Bool} {k : κ}

theorem filter_modify (hk : q k = false) {f : α → α} :
    (t.modify k f).entries.filter (fun e => q e.1) = t.entries.filter fun e => q e.1 := by
  obtain ⟨entries⟩ := t
  simp only [modify]
  induction entries with
  | nil => rfl
  | cons e es ih =>
    by_cases he : e.1 = k
    · simp [he, hk, ih]
    · simp [List.filter_cons, he, ih]

theorem filter_insert (hk : q k = false) {v : α} :
    (t.insert k v).entries.filter (fun e => q e.1) = t.entries.filter fun e => q e.1 := by
  unfold insert
  split
  · exact filter_modify hk
  · simp [hk]

theorem filter_erase (hk : q k = false) :
    (t.erase k).entries.filter (fun e => q e.1) = t.entries.filter fun e => q e.1 := by
  simp only [erase, List.filter_filter]
  refine List.filter_congr fun e _ => ?_
  by_cases he : e.1 = k
  · simp [he, hk]
  · simp [he]

end Table

section

variable {A : Prop} {w w' : World} {F : List Instr} {i : MiddlewareId} {p : EffectRef → Bool}
  {x : EffectId} {kind : WaitKind}

/-! ## Engines -/

/-- A change of an engine that nobody of some effects notices. -/
theorem World.keep_setEngine {f : Engine → Engine}
    (hw : (f (w.engine i)).waits.entries.filter (fun e => p ⟨i, e.1⟩) =
      (w.engine i).waits.entries.filter fun e => p ⟨i, e.1⟩)
    (hb : (f (w.engine i)).bus.takers.filter (fun t => p ⟨i, t.effect⟩) =
      (w.engine i).bus.takers.filter fun t => p ⟨i, t.effect⟩)
    (hj : ∀ u, ((((f (w.engine i)).tasks.get? u).map (·.joiners)).getD []).filter
        (fun y => p ⟨i, y⟩) =
      (w.joiners i u).filter fun y => p ⟨i, y⟩) :
    (w.setEngine i f).registry.keep p = w.registry.keep p := by
  apply Registry.ext
  · funext j
    simp only [Registry.keep, World.registry]
    rcases World.engine_setEngine_or w j i f with he | ⟨rfl, -, he⟩
    · rw [he]
    · rw [he, hw]
  · funext j
    simp only [Registry.keep, World.registry]
    rcases World.engine_setEngine_or w j i f with he | ⟨rfl, -, he⟩
    · rw [he]
    · rw [he, hb]
  · funext j u
    simp only [Registry.keep, World.registry]
    rcases World.engine_setEngine_or w j i f with he | ⟨rfl, -, he⟩
    · simp only [World.joiners, World.task?, he]
    · simp only [World.joiners, World.task?, he]
      exact hj u
  · rfl
  · rfl

/-- A pending effect that is not one of some effects comes in. -/
theorem World.keep_insertWait (hx : p ⟨i, x⟩ = false) (wait : Wait) :
    (w.insertWait i x wait).registry.keep p = w.registry.keep p :=
  World.keep_setEngine (Table.filter_insert (q := fun y => p ⟨i, y⟩) hx) rfl fun _ => rfl

/-- A pending effect that is not one of some effects changes. -/
theorem World.keep_modifyWait (hx : p ⟨i, x⟩ = false) (f : Wait → Wait) :
    (w.setWaits i ((w.engine i).waits.modify x f)).registry.keep p = w.registry.keep p :=
  World.keep_setEngine (Table.filter_modify (q := fun y => p ⟨i, y⟩) hx) rfl fun _ => rfl

/-- The joiners of a task change, but for those who are some effects. -/
theorem World.keep_setTask {t : TaskId} {f : TaskNode → TaskNode}
    (hf : ∀ n, w.task? i t = some n → (f n).joiners.filter (fun y => p ⟨i, y⟩) =
      n.joiners.filter fun y => p ⟨i, y⟩) :
    (w.setTask i t f).registry.keep p = w.registry.keep p := by
  refine World.keep_setEngine rfl rfl fun u => ?_
  simp only [World.joiners, Table.get?_modify]
  by_cases hu : u = t
  · subst hu
    cases hn : (w.engine i).tasks.get? u with
    | none => simp [World.task?, hn]
    | some n => simpa [World.task?, hn] using hf n hn
  · simp [World.task?, hu]

/-! ## Withdrawals -/

/-- A registration that a pending effect gives up belongs to none of some effects. -/
def World.Frees (w : World) (p : EffectRef → Bool) (i : MiddlewareId) : WaitKind → Prop
  | .take .bus id => ∀ t ∈ (w.engine i).bus.takers, t.id = id → p ⟨i, t.effect⟩ = false
  | .take (.channel c) id => ∀ channel, w.channels.get? c = some channel →
    ∀ t ∈ channel.takers, t.id = id → t.sink.keeps p = false
  | .call d => ∀ deferred r, w.deferreds.get? d = some deferred → deferred.listener = some r →
    p r = false
  | _ => True

theorem World.Frees.shrinks (h : w.Frees p i kind) (hs : w.Shrinks w') : w'.Frees p i kind := by
  cases kind with
  | take source id =>
    cases source with
    | bus => exact fun t ht => h t ((hs.takers i).subset ht)
    | channel c =>
      intro channel' hc' t ht
      obtain ⟨channel, hc, hsub⟩ := hs.channel hc'
      exact h channel hc t (hsub.takers.subset ht)
  | call d =>
    intro deferred' r hd' hl'
    obtain ⟨deferred, hd, hl, -⟩ := hs.listener hd' hl'
    exact h deferred r hd hl
  | _ => trivial

/-- What is taken out in one way is none of what is kept in another way. -/
theorem filter_filter_ne {α : Type} {q : α → Bool} {f : α → Nat} {n : Nat} {as : List α}
    (h : ∀ a ∈ as, f a = n → q a = false) :
    (as.filter fun a => f a ≠ n).filter q = as.filter q := by
  rw [List.filter_filter]
  refine List.filter_congr fun a ha => ?_
  by_cases hn : f a = n
  · simp [h a ha hn]
  · simp [hn]

theorem World.registry_stopTimer (id : Option TimerId) :
    (w.stopTimer id).registry = w.registry := by
  cases id <;> rfl

theorem World.keep_deregister (hx : p ⟨i, x⟩ = false) (hf : w.Frees p i kind) :
    (w.deregister i x kind).registry.keep p = w.registry.keep p := by
  cases kind with
  | take source id =>
    cases source with
    | bus => exact World.keep_setEngine rfl (filter_filter_ne hf) fun _ => rfl
    | channel c =>
      apply Registry.ext <;> try rfl
      funext d
      simp only [Registry.keep, World.registry, World.deregister, Table.get?_modify]
      by_cases hd : d = c
      · subst hd
        rw [if_pos rfl]
        cases hc : w.channels.get? d with
        | none => rfl
        | some channel =>
          exact congrArg (fun ts => some (ts, channel.buffer))
            (filter_filter_ne (f := Taker.id) (hf channel hc))
      · rw [if_neg hd]
  | call d =>
    cases hd : w.deferreds.get? d with
    | none => simp only [World.deregister, World.unsubscribe, hd]
    | some deferred =>
      simp only [World.deregister, World.unsubscribe, hd, World.registry_stopTimer]
      apply Registry.ext <;> try rfl
      funext e
      simp only [Registry.keep, World.registry, Table.get?_modify]
      by_cases he : e = d
      · subst he
        have hnone : deferred.listener.filter p = none :=
          Option.filter_eq_none_iff.2 fun r hr => by simp [hf deferred r hd hr]
        simp [hd, hnone, Deferred.unsubscribe]
      · simp [he]
  | join t =>
    refine World.keep_setTask fun n _ => filter_filter_ne (f := id) fun y _ hy => ?_
    obtain rfl : y = x := hy
    exact hx
  | _ => rfl

theorem World.keep_passAll (hi : w.Has i) {ps : List Passage}
    (hps : ∀ y wait, .withdrawn y wait ∈ ps → p ⟨i, y⟩ = false ∧ w.Frees p i wait.kind) :
    (w.passAll i ps).registry.keep p = w.registry.keep p := by
  induction ps generalizing w with
  | nil => rfl
  | cons passage ps ih =>
    have hrevoked := World.Revoked.pass hi passage
    have hi' : (w.pass i passage).Has i := by
      rw [World.has_iff, hrevoked.alive, ← World.has_iff]
      exact hi
    have hrest : ((w.pass i passage).passAll i ps).registry.keep p =
        (w.pass i passage).registry.keep p := ih hi' fun y wait hm =>
      have ⟨hy, hf⟩ := hps y wait (List.mem_cons_of_mem _ hm)
      ⟨hy, hf.shrinks hrevoked.shrinks⟩
    refine Eq.trans hrest ?_
    cases passage with
    | settled => rfl
    | withdrawn y wait =>
      obtain ⟨hy, hf⟩ := hps y wait List.mem_cons_self
      exact World.keep_deregister hy hf

/-- A withdrawal takes the effects out of the table that it lists. -/
theorem Waits.filter_detach {waits : Waits} {ids : List EffectId} {q : EffectId → Bool}
    (hq : ∀ y wait, .withdrawn y wait ∈ (waits.detach ids).1 → q y = false) :
    (waits.detach ids).2.entries.filter (fun e => q e.1) =
      waits.entries.filter fun e => q e.1 := by
  fun_induction detach waits ids with
  | case1 => rfl
  | case2 waits id pending hget ih => exact ih hq
  | case3 waits id pending wait hget r ih =>
    have hid : q id = false := hq id wait List.mem_cons_self
    refine (ih fun y wait hm => hq y wait (List.mem_cons_of_mem _ hm)).trans ?_
    exact Table.filter_erase hid

/--
An effect is withdrawn with everything below it, and so are their registrations. Where nothing of
this is kept, the rest is left as it was.
-/
theorem Config.Wired.keep_cancelWait (h : Wired A ⟨F, w⟩) (ha : w.Alive i)
    (hx : ∀ y wait, .withdrawn y wait ∈ ((w.engine i).waits.detach [x]).1 → p ⟨i, y⟩ = false)
    (hcall : ∀ y wait d, p ⟨i, y⟩ = false → w.wait? ⟨i, y⟩ = some wait → wait.kind = .call d →
      w.Frees p i (.call d)) :
    (w.cancelWait i x).registry.keep p = w.registry.keep p := by
  have hi := ha.has
  have hi₁ : (w.setWaits i ((w.engine i).waits.detach [x]).2).Has i := by
    rw [World.has_iff, World.setWaits, World.alive_setEngine, ← World.has_iff]
    exact hi
  have hdetach : (w.setWaits i ((w.engine i).waits.detach [x]).2).registry.keep p =
      w.registry.keep p :=
    World.keep_setEngine (Waits.filter_detach (q := fun y => p ⟨i, y⟩) hx) rfl fun _ => rfl
  refine (World.keep_passAll hi₁ fun y wait hm => ⟨hx y wait hm, ?_⟩).trans hdetach
  obtain ⟨y', wait', he, hwait⟩ := Waits.withdrawn_of_mem_detach hm
  cases he
  have hy := hx y wait hm
  cases hk : wait.kind with
  | take source id =>
    have hclaims : w.Claims ⟨i, y⟩ wait.task (.take source id) := by
      obtain ⟨t, link, kind⟩ := wait
      obtain rfl : kind = .take source id := hk
      exact ⟨trivial, link, hwait⟩
    cases source with
    | bus =>
      intro b hb hid
      have hb : b ∈ (w.engine i).bus.takers := by
        rwa [World.setWaits, World.engine_setEngine hi] at hb
      rw [(h.numbered.onBus hclaims).2 b hb hid]
      exact hy
    | channel c =>
      intro channel hc b hb hid
      rw [(h.numbered.onChannel hclaims hc).2 b hb hid]
      exact hy
  | call d => exact hcall y wait d hy hwait hk
  | _ => trivial

end

end SagaMachine
