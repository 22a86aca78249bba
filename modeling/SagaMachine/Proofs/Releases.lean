import SagaMachine.Proofs.Withdrawals

/-!
# Registrations that are answered

A source that has something for the effects registered with it lets go of them and tells them:
their settlements are on the way from then on.

Main statement: `Config.Wired.release`.
-/

namespace SagaMachine

/-! ## Who is let go -/

/-- A broadcast wakes some of the takers and keeps the others. -/
theorem Bus.select_perm (v : Value) (served : List TaskId) (ts : List BusTaker) :
    ((select v served ts).woken ++ (select v served ts).kept).Perm ts := by
  fun_induction select v served ts with
  | case1 => exact .refl _
  | case2 served t ts hs r ih => exact List.perm_middle.trans (ih.cons t)
  | case3 served t ts hs hv r ih => exact ih.cons t
  | case4 served t ts hs hv r ih => exact List.perm_middle.trans (ih.cons t)

/-- A put takes one taker out. -/
theorem Channel.removeTaker_perm {κ : Type} {v : Value} {ts rest : List (Taker κ)} {t : Taker κ}
    (h : removeTaker v ts = some (t, rest)) : (t :: rest).Perm ts := by
  obtain ⟨pre, post, rfl, rfl, -⟩ := removeTaker_split h
  exact List.perm_middle.symm

theorem Bus.kept_sublist (v : Value) (served : List TaskId) (ts : List BusTaker) :
    (select v served ts).kept.Sublist ts := by
  fun_induction select v served ts with
  | case1 => exact .refl _
  | case2 served t ts hs r ih => exact ih.cons_cons t
  | case3 served t ts hs hv r ih => exact ih.cons t
  | case4 served t ts hs hv r ih => exact ih.cons_cons t

theorem Channel.removeTaker_sublist {κ : Type} {v : Value} {ts rest : List (Taker κ)} {t : Taker κ}
    (h : removeTaker v ts = some (t, rest)) : rest.Sublist ts := by
  obtain ⟨pre, post, rfl, rfl, -⟩ := removeTaker_split h
  exact (List.sublist_cons_self t post).append_left pre

/-- Of takers with different numbers, one that is let go has a number that no other one has. -/
theorem ne_of_perm {α β : Type} {f : α → β} {xs ys zs : List α} (hp : (xs ++ ys).Perm zs)
    (hn : (zs.map f).Nodup) {x y : α} (hx : x ∈ xs) (hy : y ∈ ys) : f x ≠ f y := by
  have hn' := (hp.map f).nodup_iff.2 hn
  rw [List.map_append, List.nodup_append] at hn'
  exact hn'.2.2 _ (List.mem_map.2 ⟨x, hx, rfl⟩) _ (List.mem_map.2 ⟨y, hy, rfl⟩)

namespace Config.Wired

variable {A : Prop} {w w' : World} {F G : List Instr} {i : MiddlewareId}

/--
Effects are let go by what they are registered with: those of `G` are told, and nobody else loses
a registration.
-/
theorem release (h : Wired A ⟨F, w⟩) (hs : w.Shrinks w') (ht : w'.Timed)
    (hm : ∀ x ∈ G, ∀ r, ¬ x.Makes r) (htag : ∀ x ∈ G, ∀ c id, ¬ x.Tags c id)
    (claims : ∀ {r t k}, w.Claims r t k → w'.Claims r t k)
    (owes : ∀ {j x}, (w'.engine j).agenda.Owes x ↔ (w.engine j).agenda.Owes x)
    (free : ∀ {r}, w'.Alive r.mw → ∀ x ∈ G, x.Settles r →
      ∃ k, w.Registered r k ∧ ¬ w'.Registered r k)
    (kept : ∀ {r k}, w'.Alive r.mw → w.Registered r k →
      w'.Registered r k ∨ ∃ x ∈ G, x.Settles r) :
    Wired A ⟨G ++ F, w'⟩ := by
  have ho : ∀ {r}, Owes ⟨G ++ F, w'⟩ r ↔ (∃ x ∈ G, x.Settles r) ∨ Owes ⟨F, w⟩ r := by
    intro r
    simp only [Owes, owes, List.mem_append, or_and_right, exists_or]
    exact or_left_comm
  have hmk : ∀ {r}, Makes ⟨G ++ F, w'⟩ r → Makes ⟨F, w⟩ r := by
    rintro r ⟨x, hx, hr⟩
    rcases List.mem_append.1 hx with hx | hx
    · exact absurd hr (hm x hx r)
    · exact ⟨x, hx, hr⟩
  have hnot : ∀ {r k}, w'.Alive r.mw → w'.Registered r k → ¬ ∃ x ∈ G, x.Settles r := by
    rintro r k ha hr ⟨x, hx, hxr⟩
    obtain ⟨k', hk, hk'⟩ := free ha x hx hxr
    obtain ⟨t, hc⟩ := (h.fits (hs.alive ha)).backed (hs.registered hr)
    obtain ⟨t', hc'⟩ := (h.fits (hs.alive ha)).backed hk
    rw [(hc.unique hc').2] at hr
    exact hk' hr
  refine h.shrink hs ht ?_ (fun _ _ hc => claims hc) ?_ ?_ ?_
  · intro x hx d id hd
    rcases List.mem_append.1 hx with hx | hx
    · exact absurd hd (htag x hx d id)
    · exact ⟨x, hx, hd⟩
  · intro r k ha hr howe
    exact (ho.1 howe).resolve_left (hnot ha hr)
  · intro r ha hmr
    refine ⟨hmk hmr, fun howe => (ho.1 howe).resolve_left ?_⟩
    rintro ⟨x, hx, hxr⟩
    obtain ⟨k, hk, -⟩ := free ha x hx hxr
    obtain ⟨t, hc⟩ := (h.fits (hs.alive ha)).backed hk
    exact ((h.fits (hs.alive ha)).making (hmk hmr)).1 t k hc
  · intro r t k _ ha hc hreg
    rw [ho]
    rcases hreg with hreg | howe
    · rcases kept ha hreg with hr | hG
      · exact Or.inl hr
      · exact Or.inr (Or.inl hG)
    · exact Or.inr (Or.inr howe)

/-! ## Settlements come onto the agenda -/

/-- A settlement that was about to be scheduled is on the agenda. -/
theorem schedule {x : EffectId} {signal : Signal}
    (h : Wired A ⟨.schedule i (.settle x signal) :: F, w⟩) :
    Wired A ⟨F, w.schedule i (.settle x signal)⟩ := by
  refine h.agenda rfl rfl rfl (fun {y} => ?_) (fun {r} hr => ?_)
    (fun z hz r hm => ⟨z, List.mem_cons_of_mem _ hz, hm⟩)
    fun z hz d id ht => ⟨z, List.mem_cons_of_mem _ hz, ht⟩
  · have hnew : Agenda.Owes ((w.engine i).agenda.schedule (.settle x signal)) y ↔
        y = x ∨ (w.engine i).agenda.Owes y := by
      have : (∃ s, Reaction.settle y s = .settle x signal) ↔ y = x := by simp
      simp only [Agenda.Owes, Agenda.schedule, List.mem_append, List.mem_singleton, exists_or, this]
      tauto
    have hx : Instr.Settles ⟨i, y⟩ (.schedule i (.settle x signal)) ↔ y = x := by
      simp [Instr.Settles]
    simp only [hnew, List.mem_cons, exists_eq_or_imp, hx]
    exact or_assoc.trans or_left_comm
  · have hx : ¬ Instr.Settles r (.schedule i (.settle x signal)) := by
      rintro rfl
      exact hr rfl
    simp only [List.mem_cons, exists_eq_or_imp, hx, false_or]

theorem foldl_schedule {α : Type} {f : α → EffectId} {signal : Signal} {as : List α}
    (h : Wired A ⟨as.map (fun a => .schedule i (.settle (f a) signal)) ++ F, w⟩) :
    Wired A ⟨F, as.foldl (fun w a => w.schedule i (.settle (f a) signal)) w⟩ := by
  induction as generalizing w with
  | nil => exact h
  | cons a as ih => exact ih h.schedule

/-- An errand that ends with the settlement of an effect is on the agenda. -/
theorem queue {e : Errand} (h : Wired A ⟨.perform i (.errand e) :: F, w⟩) :
    Wired A ⟨F, w.queue i e⟩ := by
  refine Wired.calm (h.agenda (f := fun g => { g with agenda := g.agenda.queue e }) rfl rfl rfl
    (fun {y} => ?_) (fun {r} hr => ?_)
    (fun z hz r hm => ⟨z, List.mem_cons_of_mem _ hz, hm⟩)
    fun z hz d id ht => ⟨z, List.mem_cons_of_mem _ hz, ht⟩) (.record _)
  · have hnew : Agenda.Owes ((w.engine i).agenda.queue e) y ↔
        e.reply? = some y ∨ (w.engine i).agenda.Owes y := by
      simp only [Agenda.Owes, Agenda.queue, List.mem_append, List.mem_singleton, or_and_right,
        exists_or, exists_eq_left]
      rw [← or_assoc, or_comm]
    have hx : Instr.Settles ⟨i, y⟩ (.perform i (.errand e)) ↔ e.reply? = some y := by
      simp [Instr.Settles]
    simp only [hnew, List.mem_cons, exists_eq_or_imp, hx]
    exact or_assoc.trans or_left_comm
  · have hx : ¬ Instr.Settles r (.perform i (.errand e)) := by
      rintro ⟨x, -, rfl⟩
      exact hr rfl
    simp only [List.mem_cons, exists_eq_or_imp, hx, false_or]

/-! ## The sources -/

theorem not_makes_schedule {α : Type} {f : α → Reaction} {as : List α} :
    ∀ x ∈ as.map (fun a => Instr.schedule i (f a)), ∀ r, ¬ x.Makes r := by
  intro x hx r hm
  obtain ⟨a, -, rfl⟩ := List.mem_map.1 hx
  exact hm

theorem not_tags_schedule {α : Type} {f : α → Reaction} {as : List α} :
    ∀ x ∈ as.map (fun a => Instr.schedule i (f a)), ∀ c id, ¬ x.Tags c id := by
  intro x hx c id ht
  obtain ⟨a, -, rfl⟩ := List.mem_map.1 hx
  exact ht

/-- The bus lets go of some takers. -/
theorem releaseBus (h : Wired A ⟨F, w⟩) (hi : w.Has i) (woken : List BusTaker) (bus : Bus)
    (hp : (woken ++ bus.takers).Perm (w.engine i).bus.takers)
    (hsub : bus.takers.Sublist (w.engine i).bus.takers)
    (hn : bus.nextTaker = (w.engine i).bus.nextTaker) {f : Engine → Engine}
    (hb : (f (w.engine i)).bus = bus) (htasks : (f (w.engine i)).tasks = (w.engine i).tasks)
    (hw : (f (w.engine i)).waits = (w.engine i).waits)
    (ho : (f (w.engine i)).agenda = (w.engine i).agenda) (signal : Signal) :
    Wired A ⟨woken.map (fun t => .schedule i (.settle t.effect signal)) ++ F,
      w.setEngine i f⟩ := by
  have hs : w.Shrinks (w.setEngine i f) :=
    .setEngine (by rw [hw]; exact fun _ h => h) (by rw [hb]; exact hsub)
      (by rw [hb]; exact Nat.le_of_eq hn.symm) (fun _ => by rw [htasks]; exact .refl _)
  have he : (w.setEngine i f).engine i = f (w.engine i) := World.engine_setEngine hi _
  have hne : ∀ {j}, j ≠ i → (w.setEngine i f).engine j = w.engine j :=
    fun hj => (World.untouched_setEngine hj _).engine
  have hsame : ∀ j, ((w.setEngine i f).engine j).waits = (w.engine j).waits ∧
      ((w.setEngine i f).engine j).agenda = (w.engine j).agenda ∧
      ((w.setEngine i f).engine j).tasks = (w.engine j).tasks := by
    intro j
    by_cases hj : j = i
    · subst hj
      rw [he]
      exact ⟨hw, ho, htasks⟩
    · rw [hne hj]
      exact ⟨rfl, rfl, rfl⟩
  refine h.release hs ⟨h.timed.armed, h.timed.timer, h.timed.next, h.timed.named⟩ not_makes_schedule
    not_tags_schedule (World.claims_congr (by simp only [World.wait?, (hsame _).1])).2
    (fun {j x} => by rw [(hsame j).2.1]) ?_ ?_
  · rintro r - x hx hr
    obtain ⟨t, ht, rfl⟩ := List.mem_map.1 hx
    cases hr
    refine ⟨.take .bus t.id, .bus (hp.subset (List.mem_append_left _ ht)) rfl, fun hr => ?_⟩
    generalize hk : WaitKind.take .bus t.id = k at hr
    cases hr with
    | bus ht' =>
      simp only [he, hb] at ht'
      simp only [WaitKind.take.injEq, true_and] at hk
      exact ne_of_perm hp (h.numbered.bus i) ht ht' hk
    | _ => cases hk
  · rintro r k - hr
    cases hr with
    | @bus t ht hef =>
      by_cases hri : r.mw = i
      · obtain ⟨j, x⟩ := r
        cases hri
        rcases List.mem_append.1 (hp.symm.subset ht) with ht' | ht'
        · exact Or.inr ⟨_, List.mem_map.2 ⟨t, ht', rfl⟩, by rw [← show t.effect = x from hef]; rfl⟩
        · exact Or.inl (.bus (by simpa only [he, hb] using ht') hef)
      · exact Or.inl (.bus (by rwa [hne hri]) hef)
    | channel hc ht hsink => exact Or.inl (.channel hc ht hsink)
    | call hd hl => exact Or.inl (.call hd hl)
    | join hj =>
      refine Or.inl (.join ?_)
      simpa only [World.joiners, World.task?, (hsame _).2.2] using hj

/-- A channel lets go of some takers. -/
theorem releaseChannel (h : Wired A ⟨F, w⟩) {c : ChannelId} {channel : Channel Sink}
    (hc : w.channels.get? c = some channel) (woken : List (Taker Sink)) (channel' : Channel Sink)
    (hp : (woken ++ channel'.takers).Perm channel.takers) (hs : channel.Shrinks channel')
    (d : Delivery) :
    Wired A ⟨woken.map (fun t => .deliver t.sink d) ++ F,
      { w with channels := w.channels.insert c channel' }⟩ := by
  have hs' : w.Shrinks { w with channels := w.channels.insert c channel' } := by
    refine ⟨fun ha => ha, fun hcl => hcl.of_middlewares rfl, fun _ => .refl _, fun _ => Nat.le_refl _,
      fun _ _ => .refl _, fun e => ?_, fun hd hl => ⟨_, hd, hl, rfl⟩, rfl⟩
    rw [Table.get?_insert]
    split
    · rename_i hec
      rw [hec, hc]
      exact .some hs
    · exact Option.Rel.refl .refl _
  refine h.release hs' ⟨h.timed.armed, h.timed.timer, h.timed.next, h.timed.named⟩ ?_ ?_
    (fun hcl => hcl.of_middlewares rfl) Iff.rfl ?_ ?_
  · intro x hx r hm
    obtain ⟨t, -, rfl⟩ := List.mem_map.1 hx
    exact hm
  · intro x hx c id ht
    obtain ⟨t, -, rfl⟩ := List.mem_map.1 hx
    exact ht
  · rintro r - x hx hr
    obtain ⟨t, ht, rfl⟩ := List.mem_map.1 hx
    have hsink : t.sink = .effect r := by
      cases hsk : t.sink with
      | effect s =>
        rw [hsk] at hr
        rw [show r = s from hr]
      | script =>
        rw [hsk] at hr
        exact hr.elim
    refine ⟨.take (.channel c) t.id, .channel hc (hp.subset (List.mem_append_left _ ht)) hsink,
      fun hr => ?_⟩
    generalize hk : WaitKind.take (.channel c) t.id = k at hr
    cases hr with
    | channel hc' ht' =>
      simp only [WaitKind.take.injEq, Source.channel.injEq] at hk
      obtain ⟨rfl, hid⟩ := hk
      simp only [Table.get?_insert, if_true, Option.some.injEq] at hc'
      subst hc'
      exact ne_of_perm hp (h.numbered.channel hc) ht ht' hid
    | _ => cases hk
  · rintro r k - hr
    cases hr with
    | bus ht he => exact Or.inl (.bus ht he)
    | @channel e ch t hc' ht hsink =>
      by_cases hec : e = c
      · subst hec
        cases hc.symm.trans hc'
        rcases List.mem_append.1 (hp.symm.subset ht) with ht' | ht'
        · exact Or.inr ⟨_, List.mem_map.2 ⟨t, ht', rfl⟩, by rw [hsink]; rfl⟩
        · exact Or.inl (.channel (by simp) ht' hsink)
      · exact Or.inl (.channel (by simpa [hec] using hc') ht hsink)
    | call hd hl => exact Or.inl (.call hd hl)
    | join hj => exact Or.inl (.join hj)

/-- A deferred is settled, and lets go of its listener. -/
theorem releaseListener (h : Wired A ⟨F, w⟩) {d : DeferredId} {deferred : Deferred EffectRef}
    (hd : w.deferreds.get? d = some deferred) (htm : ∀ t ∈ w.timers, t.deferred ≠ d) (a : Answer)
    (signal : Signal) :
    Wired A ⟨(deferred.settle a).listener.toList.map
        (fun r => .schedule r.mw (.settle r.effect signal)) ++ F,
      { w with deferreds := w.deferreds.insert d (deferred.settle a).deferred }⟩ := by
  have hget : ∀ {e deferred'}, (w.deferreds.insert d (deferred.settle a).deferred).get? e =
      some deferred' → e = d ∧ deferred' = (deferred.settle a).deferred ∨
        e ≠ d ∧ w.deferreds.get? e = some deferred' := by
    intro e deferred' he
    rw [Table.get?_insert] at he
    split at he
    · rename_i hed
      cases he
      exact Or.inl ⟨hed, rfl⟩
    · rename_i hed
      exact Or.inr ⟨hed, he⟩
  have hkept : ∀ {e deferred'}, e ≠ d → w.deferreds.get? e = some deferred' →
      (w.deferreds.insert d (deferred.settle a).deferred).get? e = some deferred' := by
    intro e deferred' hed he
    rw [Table.get?_insert, if_neg hed]
    exact he
  have hnone : ∀ r, (deferred.settle a).deferred.listener ≠ some r := by
    intro r hr
    unfold Deferred.settle at hr
    split at hr
    · rename_i o ho
      rw [h.numbered.unsettled hd hr] at ho
      cases ho
    · cases hr
  have hlisten : ∀ r, (deferred.settle a).listener = some r ↔ deferred.listener = some r := by
    intro r
    unfold Deferred.settle
    split
    · rename_i o ho
      refine ⟨fun hr => (by cases hr), fun hr => ?_⟩
      rw [h.numbered.unsettled hd hr] at ho
      cases ho
    · exact Iff.rfl
  have htimer : ∀ id, (deferred.settle a).deferred.timer = some id → deferred.timer = some id := by
    intro id hid
    unfold Deferred.settle at hid
    split at hid
    · exact hid
    · cases hid
  have hs : w.Shrinks { w with deferreds := w.deferreds.insert d (deferred.settle a).deferred } := by
    refine ⟨fun ha => ha, fun hcl => hcl.of_middlewares rfl, fun _ => .refl _, fun _ => Nat.le_refl _,
      fun _ _ => .refl _, fun _ => Option.Rel.refl .refl _, fun he hl => ?_, rfl⟩
    rcases hget he with ⟨-, rfl⟩ | ⟨-, he⟩
    · exact absurd hl (hnone _)
    · exact ⟨_, he, hl, rfl⟩
  have ht : World.Timed { w with deferreds := w.deferreds.insert d (deferred.settle a).deferred } := by
    refine ⟨fun hm => ?_, fun he hid => ?_, fun he => ?_, fun hn => ?_⟩
    · obtain ⟨deferred', he, h1, h2⟩ := h.timed.armed hm
      exact ⟨deferred', hkept (htm _ hm) he, h1, h2⟩
    · rcases hget he with ⟨rfl, rfl⟩ | ⟨-, he⟩
      · exact h.timed.timer hd (htimer _ hid)
      · exact h.timed.timer he hid
    · rcases hget he with ⟨rfl, rfl⟩ | ⟨-, he⟩
      · exact h.timed.next hd
      · exact h.timed.next he
    · rename_i name e
      obtain ⟨deferred', he, htn⟩ := h.timed.named hn
      by_cases hed : e = d
      · subst hed
        cases hd.symm.trans he
        refine ⟨(deferred.settle a).deferred, by simp, ?_⟩
        cases htm : (deferred.settle a).deferred.timer with
        | none => rfl
        | some id =>
          rw [htimer id htm] at htn
          cases htn
      · exact ⟨deferred', hkept hed he, htn⟩
  refine h.release hs ht ?_ ?_ (fun hcl => hcl.of_middlewares rfl) Iff.rfl ?_ ?_
  · intro x hx r hm
    obtain ⟨t, -, rfl⟩ := List.mem_map.1 hx
    exact hm
  · intro x hx c id htg
    obtain ⟨t, -, rfl⟩ := List.mem_map.1 hx
    exact htg
  · rintro r - x hx hr
    obtain ⟨s, hsm, rfl⟩ := List.mem_map.1 hx
    cases hr
    refine ⟨.call d, .call hd ((hlisten s).1 (Option.mem_toList.1 hsm)), fun hr => ?_⟩
    generalize hk : WaitKind.call d = k at hr
    cases hr with
    | call he hl =>
      cases hk
      rcases hget he with ⟨-, rfl⟩ | ⟨hne, -⟩
      · exact hnone _ hl
      · exact hne rfl
    | _ => cases hk
  · rintro r k - hr
    cases hr with
    | bus ht he => exact Or.inl (.bus ht he)
    | channel hc ht hsink => exact Or.inl (.channel hc ht hsink)
    | @call e deferred' he hl =>
      by_cases hed : e = d
      · subst hed
        cases hd.symm.trans he
        exact Or.inr ⟨_, List.mem_map.2 ⟨r, Option.mem_toList.2 ((hlisten r).2 hl), rfl⟩, rfl⟩
      · exact Or.inl (.call (hkept hed he) hl)
    | join hj => exact Or.inl (.join hj)

/-- A task that leaves the table lets go of its joiners. -/
theorem releaseJoiners (h : Wired A ⟨F, w⟩) (hi : w.Has i) {t : TaskId} {n : TaskNode}
    (hn : w.task? i t = some n) {f : Engine → Engine}
    (ht : (f (w.engine i)).tasks = (w.engine i).tasks.erase t)
    (hw : (f (w.engine i)).waits = (w.engine i).waits)
    (hb : (f (w.engine i)).bus = (w.engine i).bus)
    (ho : (f (w.engine i)).agenda = (w.engine i).agenda) (signal : Signal) :
    Wired A ⟨n.joiners.map (fun x => .schedule i (.settle x signal)) ++ F, w.setEngine i f⟩ := by
  have he : (w.setEngine i f).engine i = f (w.engine i) := World.engine_setEngine hi _
  have hne : ∀ {j}, j ≠ i → (w.setEngine i f).engine j = w.engine j :=
    fun hj => (World.untouched_setEngine hj _).engine
  have hsame : ∀ j, ((w.setEngine i f).engine j).waits = (w.engine j).waits ∧
      ((w.setEngine i f).engine j).agenda = (w.engine j).agenda ∧
      ((w.setEngine i f).engine j).bus = (w.engine j).bus := by
    intro j
    by_cases hj : j = i
    · subst hj
      rw [he]
      exact ⟨hw, ho, hb⟩
    · rw [hne hj]
      exact ⟨rfl, rfl, rfl⟩
  have hjn : w.joiners i t = n.joiners := by simp [World.joiners, hn]
  have hjoin : ∀ j u, (w.setEngine i f).joiners j u = if j = i ∧ u = t then [] else w.joiners j u := by
    intro j u
    by_cases hj : j = i
    · subst hj
      simp only [World.joiners, World.task?, he, ht, Table.get?_erase, true_and]
      split <;> rfl
    · simp only [World.joiners, World.task?, hne hj, hj, false_and, if_false]
  have hs : w.Shrinks (w.setEngine i f) := by
    refine .setEngine (by rw [hw]; exact fun _ h => h) (by rw [hb])
      (by exact Nat.le_of_eq (by rw [hb])) fun u => ?_
    rw [ht, Table.get?_erase]
    split
    · exact List.nil_sublist _
    · exact .refl _
  refine h.release hs ⟨h.timed.armed, h.timed.timer, h.timed.next, h.timed.named⟩ not_makes_schedule
    not_tags_schedule (World.claims_congr (by simp only [World.wait?, (hsame _).1])).2
    (fun {j x} => by rw [(hsame j).2.1]) ?_ ?_
  · rintro r - x hx hr
    obtain ⟨y, hy, rfl⟩ := List.mem_map.1 hx
    cases hr
    refine ⟨.join t, .join (by rw [hjn]; exact hy), fun hr => ?_⟩
    generalize hk : WaitKind.join t = k at hr
    cases hr with
    | join hj =>
      cases hk
      rw [hjoin, if_pos ⟨rfl, rfl⟩] at hj
      cases hj
    | _ => cases hk
  · rintro r k - hr
    cases hr with
    | bus ht hef => exact Or.inl (.bus (by rwa [(hsame _).2.2]) hef)
    | channel hc ht hsink => exact Or.inl (.channel hc ht hsink)
    | call hd hl => exact Or.inl (.call hd hl)
    | @join u hj =>
      by_cases hu : r.mw = i ∧ u = t
      · obtain ⟨rfl, rfl⟩ := hu
        rw [hjn] at hj
        exact Or.inr ⟨_, List.mem_map.2 ⟨_, hj, rfl⟩, rfl⟩
      · exact Or.inl (.join (by rwa [hjoin, if_neg hu]))

end Config.Wired

end SagaMachine
