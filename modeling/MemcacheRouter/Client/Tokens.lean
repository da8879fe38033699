import MemcacheRouter.Client.Interleaving

/-!
# Tokens

A client that updates a value optimistically calls `gets`, which returns the value with its cas
token, and then `cas` with that token. The token goes a long way: memcached, `GetKeys`, the cache,
the reply, the client, and back into the three-way branch of `SetKeys`, where the token zero stands
for no token at all. The cache also stores the tokens that SET requests carry.

A positive token that memcached handed out identifies one write, since tokens are never reused.
What has to be excluded is a reply whose value was never in memcached under its token: that of a
`cas` which is still between its two writes, or is never sent to memcached.
-/

open Transition

namespace MemcacheRouter

/-! ## The tokens of a store -/

namespace Store

/-- Every item carries a token that was handed out. -/
def TokensIssued (s : Store) : Prop :=
  ∀ k it, s.items k = some it → it.cas < s.nextCas

/-- How the item of `k` develops: it stays, or it is replaced by one with a token of its own. -/
structure Later (s : Store) (k : Bytes) (s' : Store) : Prop where
  now_le : s.now ≤ s'.now
  nextCas_le : s.nextCas ≤ s'.nextCas
  items : s'.items k = s.items k ∨ ∃ it, s'.items k = some it ∧ s.nextCas ≤ it.cas

/-- No request with the token `t` for `k` can succeed any more. -/
def Dead (s : Store) (k : Bytes) (t : ℕ) : Prop :=
  t < s.nextCas ∧ ∀ it, s.lookup k = some it → it.cas ≠ t

variable {s s' s'' : Store} {k j : Bytes} {t : ℕ}

theorem Later.refl (s : Store) (k : Bytes) : s.Later k s := ⟨le_rfl, le_rfl, Or.inl rfl⟩

theorem Later.trans (h : s.Later k s') (h' : s'.Later k s'') : s.Later k s'' := by
  refine ⟨h.now_le.trans h'.now_le, h.nextCas_le.trans h'.nextCas_le, ?_⟩
  rcases h'.items with hsame | ⟨it, hit, hle⟩
  · rw [hsame]
    exact h.items
  · exact Or.inr ⟨it, hit, h.nextCas_le.trans hle⟩

theorem WritesAt.later (h : s.WritesAt j s') (k : Bytes) : s.Later k s' := by
  rcases h with rfl | ⟨value, flags, exptime, rfl⟩
  · exact Later.refl _ _
  · refine ⟨le_rfl, Nat.le_succ _, ?_⟩
    by_cases hk : k = j
    · subst hk
      exact Or.inr ⟨_, items_write_self, le_rfl⟩
    · exact Or.inl (items_write_of_ne hk)

theorem later_tick (s : Store) (k : Bytes) (n : ℕ) : s.Later k (s.tick n) :=
  ⟨Nat.le_add_right _ _, le_rfl, Or.inl rfl⟩

theorem TokensIssued.writesAt (hs : s.TokensIssued) (h : s.WritesAt j s') :
    s'.TokensIssued := by
  rcases h with rfl | ⟨value, flags, exptime, rfl⟩
  · exact hs
  · intro k it hit
    by_cases hk : k = j
    · subst hk
      rw [items_write_self] at hit
      cases hit
      exact Nat.lt_succ_self _
    · rw [items_write_of_ne hk] at hit
      exact (hs k it hit).trans (Nat.lt_succ_self _)

theorem Dead.later (h : s.Dead k t) (h' : s.Later k s') : s'.Dead k t := by
  refine ⟨h.1.trans_le h'.nextCas_le, ?_⟩
  intro it hit
  obtain ⟨hitems, hlive⟩ := lookup_eq_some_iff.mp hit
  rcases h'.items with hsame | ⟨it', hit', hle⟩
  · -- the item of before, which was alive before if it still is
    refine h.2 it (lookup_eq_some_iff.mpr ⟨hsame.symm.trans hitems, fun e he ↦ ?_⟩)
    exact h'.now_le.trans_lt (hlive e he)
  · obtain rfl := Option.some.inj (hitems.symm.trans hit')
    exact (h.1.trans_le hle).ne'

/-- **A token identifies a write**: between two moments at which `k` has one token, it has one
item. -/
theorem Later.items_eq {it it' : Item} (hs : s.TokensIssued) (h : s.Later k s')
    (h' : s'.Later k s'') (hit : s.items k = some it) (hit' : s''.items k = some it')
    (hcas : it'.cas = it.cas) : s'.items k = some it := by
  have hlt := hs k it hit
  rcases h.items with hsame | ⟨it₁, hit₁, hle₁⟩
  · rw [hsame, hit]
  · -- a later token in the middle would still be later at the end
    rcases h'.items with hsame | ⟨it₂, hit₂, hle₂⟩
    · obtain rfl := Option.some.inj (hit₁.symm.trans (hsame.symm.trans hit'))
      omega
    · obtain rfl := Option.some.inj (hit₂.symm.trans hit')
      have hnext := h.nextCas_le
      omega

/-- A write that was accepted or rejected leaves its token without effect. -/
theorem dead_put {kv : KeyValue} (hpos : 0 < kv.cas) (hlt : kv.cas < s.nextCas) :
    (s.put kv).1.Dead kv.key kv.cas := by
  have hlater := (s.writesAt_put kv).later kv.key
  refine ⟨hlt.trans_le hlater.nextCas_le, ?_⟩
  intro it hit
  rcases s.put_cases kv with ⟨-, hput⟩ | ⟨hrej, hput, -⟩
  · rw [hput, Store.set] at hit
    have hitems := (lookup_eq_some_iff.mp hit).1
    rw [items_write_self] at hitems
    cases hitems
    exact hlt.ne'
  · rw [hput] at hit
    rw [Accepts, if_pos hpos] at hrej
    exact fun hcas ↦ hrej ⟨it, hit, hcas⟩

end Store

/-! ## Replies and writes in a run -/

variable {lib : Libmemcached}

/-- A move performs at most one operation on memcached. -/
theorem Task.Advance.memc {w w' : Stores} {t t' : Task} {m : Move}
    (h : t.Advance lib w m w' t') (hwf : w.CacheWF) :
    w'.CacheWF ∧ ∃ j, w.memc.WritesAt j w'.memc := by
  cases h with
  | begin _ => exact ⟨hwf, [], Or.inl rfl⟩
  | lookup hget => exact ⟨(hwf.cacheGet hget).1, [], Or.inl (hwf.cacheGet hget).2.1⟩
  | read _ => exact ⟨hwf, [], Or.inl rfl⟩
  | fill _ _ hadd => exact ⟨(hwf.cacheAdd hadd).1, [], Or.inl (hwf.cacheAdd hadd).2.1⟩
  | cacheWrite hadd => exact ⟨(hwf.cacheAdd hadd).1, [], Or.inl (hwf.cacheAdd hadd).2.1⟩
  | memcWrite => exact ⟨hwf, _, w.memc.writesAt_put _⟩
  | incr => exact ⟨hwf, _, w.memc.writesAt_count _⟩
  | finish _ => exact ⟨hwf, [], Or.inl rfl⟩

/-- The results a worker holds after a move: those it held, and what it read from memcached. -/
theorem Task.Advance.fetched {w w' : Stores} {t t' : Task} {m : Move}
    (h : t.Advance lib w m w' t') {keys todo missed : List Bytes} {fetched : List (Bytes × Item)}
    (ht' : t' = .getting keys todo missed fetched) {r : Bytes × Item} (hr : r ∈ fetched) :
    w.memc.lookup r.1 = some r.2 ∨ ∃ keys₀ todo₀ missed₀ fetched₀,
      t = .getting keys₀ todo₀ missed₀ fetched₀ ∧ r ∈ fetched₀ := by
  cases h with
  | begin req =>
    cases req with
    | get keys₀ =>
      cases ht'
      cases hr
    | set items => cases ht'
    | incr items => cases ht'
  | lookup _ =>
    cases ht'
    exact Or.inr ⟨_, _, _, _, rfl, hr⟩
  | @read _ _ k _ _ =>
    cases ht'
    rcases List.mem_append.mp hr with hr | hr
    · exact Or.inr ⟨_, _, _, _, rfl, hr⟩
    · obtain ⟨it, hit, rfl⟩ := Option.map_eq_some_iff.mp (Option.mem_toList.mp hr)
      exact Or.inl hit
  | fill _ _ _ =>
    cases ht'
    exact Or.inr ⟨_, _, _, _, rfl, List.mem_of_mem_erase hr⟩
  | cacheWrite _ => split_ifs at ht'
  | memcWrite => cases ht'
  | incr => cases ht'
  | finish _ => cases ht'

namespace System

/-- The step `a` fixes the value `v` and the token `t` of a reply for `k`: the cache had them, a
result of memcached did, or memcached had nothing. -/
def Replies (s : System) (a : Action) (k v : Bytes) (t : ℕ) : Prop :=
  (∃ i keys todo missed fetched d, a = .move i .lookup ∧
      s.task i = .getting keys (k :: todo) missed fetched ∧ s.view k = some d ∧
      d.value = v ∧ d.cas = t) ∨
    (∃ i r, a = .move i (.fill r) ∧ r.1 = k ∧ r.2.value = v ∧ r.2.cas = t) ∨
    ∃ i, a = .move i (.read k) ∧ s.memc.lookup k = none ∧ v = [] ∧ t = 0

/-- The step `a` sends a SET item for `k` with the token `t` to memcached, which takes it. -/
def CasApplied (s : System) (a : Action) (k : Bytes) (t : ℕ) : Prop :=
  ∃ i item rest, a = .move i .memcWrite ∧ s.task i = .storing item rest ∧ item.key = k ∧
    item.cas = t ∧ s.memc.Accepts item

/-- The cache has the value and token of a SET item that has not reached memcached. -/
def CasInFlight (s : System) (k v : Bytes) (t : ℕ) : Prop :=
  ∃ i item rest, s.task i = .storing item rest ∧ item.key = k ∧ item.val = v ∧ item.cas = t

/-- Along the run `as` from `s₀` there was a moment when memcached held `v` for `k` under `t`. -/
def WasCurrent (lib : Libmemcached) (s₀ : System) (as : List Action) (k v : Bytes) (t : ℕ) :
    Prop :=
  ∃ pre post u it, as = pre ++ post ∧ Run (StepOf (step lib)) s₀ pre u ∧
    u.memc.lookup k = some it ∧ it.value = v ∧ it.cas = t

variable {s₀ s s' : System} {as : List Action} {a : Action} {k v : Bytes} {t : ℕ}

theorem WasCurrent.concat (h : WasCurrent lib s₀ as k v t) (a : Action) :
    WasCurrent lib s₀ (as ++ [a]) k v t := by
  obtain ⟨pre, post, u, it, rfl, hrun, hit⟩ := h
  exact ⟨pre, post ++ [a], u, it, List.append_assoc _ _ _, hrun, hit⟩

/-- What every step of every run keeps. -/
structure Sound (s : System) : Prop where
  wf : s.CacheWF
  issued : s.memc.TokensIssued

theorem Sound.of_step (hs : s.Sound) (h : s.step lib a = some s') :
    s'.Sound ∧ ∀ k, s.memc.Later k s'.memc := by
  rcases step_cases h with ⟨i, m, w, t, rfl, hmove, rfl⟩ | ⟨n, rfl, rfl⟩
  · obtain ⟨hwf, j, hj⟩ := hmove.memc hs.wf
    exact ⟨⟨hwf, hs.issued.writesAt hj⟩, hj.later⟩
  · exact ⟨⟨hs.wf, hs.issued⟩, fun k ↦ s.memc.later_tick k n⟩

theorem Sound.of_run (hs : s.Sound) (h : Run (StepOf (step lib)) s as s') :
    s'.Sound ∧ ∀ k, s.memc.Later k s'.memc := by
  induction h with
  | nil => exact ⟨hs, fun k ↦ Store.Later.refl _ k⟩
  | snoc _ hstep ih =>
    obtain ⟨hsound, hlater⟩ := ih.1.of_step hstep
    exact ⟨hsound, fun k ↦ (ih.2 k).trans (hlater k)⟩

/-- The condition under which the tokens of replies can be relied on. A lookup does not find the
entry of a `cas` that has not reached memcached; and a `cas` is propagated, and carries a token
that memcached has handed out. -/
def TokenSafe (s : System) : Action → Prop
  | .move i .lookup => ∀ keys k todo missed fetched,
      s.task i = .getting keys (k :: todo) missed fetched →
        ∀ d, s.view k = some d → 0 < d.cas → ¬s.CasInFlight k d.value d.cas
  | .move i .cacheWrite => ∀ item rest, s.task i = .setting (item :: rest) → 0 < item.cas →
      item.noPropagate = false ∧ item.cas < s.memc.nextCas
  | _ => True

/-- What is known of the value `v` with the positive token `t` in the cache: memcached held it under
this token, or it is about to be offered to memcached, or the token is of no use any more. -/
def Accounted (lib : Libmemcached) (s₀ : System) (as : List Action) (s : System) (k v : Bytes)
    (t : ℕ) : Prop :=
  WasCurrent lib s₀ as k v t ∨ s.memc.Dead k t ∨
    (t < s.memc.nextCas ∧ s.CasInFlight k v t)

/-- The invariant of a run with safe tokens, for the entries of the cache and for the results that
workers have read and not stored yet. -/
structure Traced (lib : Libmemcached) (s₀ : System) (as : List Action) (s : System) : Prop where
  sound : s.Sound
  entry : ∀ k d, s.view k = some d → 0 < d.cas → Accounted lib s₀ as s k d.value d.cas
  fetched : ∀ i keys todo missed fetched, s.task i = .getting keys todo missed fetched →
    ∀ r ∈ fetched, WasCurrent lib s₀ as r.1 r.2.value r.2.cas

theorem Accounted.concat (h : Accounted lib s₀ as s k v t) (hlater : s.memc.Later k s'.memc)
    (hflight : s.CasInFlight k v t → s'.CasInFlight k v t) (a : Action) :
    Accounted lib s₀ (as ++ [a]) s' k v t := by
  rcases h with hcur | hdead | ⟨hlt, hfly⟩
  · exact Or.inl (hcur.concat a)
  · exact Or.inr (Or.inl (hdead.later hlater))
  · exact Or.inr (Or.inr ⟨hlt.trans_le hlater.nextCas_le, hflight hfly⟩)

theorem CasInFlight.update {i : ℕ} {w : Stores} {task : Task} (h : s.CasInFlight k v t)
    (hi : ∀ item rest, s.task i ≠ .storing item rest) :
    (System.mk w (Function.update s.task i task)).CasInFlight k v t := by
  obtain ⟨j, item, rest, htask, hitem⟩ := h
  have hji : j ≠ i := by
    rintro rfl
    exact hi item rest htask
  exact ⟨j, item, rest, (Function.update_of_ne hji _ _).trans htask, hitem⟩

theorem Traced.fetched_step (hs : Traced lib s₀ as s) (hrun : Run (StepOf (step lib)) s₀ as s)
    (hstep : s.step lib a = some s') (i : ℕ) (keys todo missed : List Bytes)
    (fetched : List (Bytes × Item)) (htask : s'.task i = .getting keys todo missed fetched)
    (r : Bytes × Item) (hr : r ∈ fetched) :
    WasCurrent lib s₀ (as ++ [a]) r.1 r.2.value r.2.cas := by
  rcases step_cases hstep with ⟨j, m, w, t, rfl, hmove, rfl⟩ | ⟨n, rfl, rfl⟩
  · by_cases hij : i = j
    · subst hij
      have ht : t = .getting keys todo missed fetched :=
        (Function.update_self i t s.task).symm.trans htask
      rcases hmove.fetched ht hr with hread | ⟨keys₀, todo₀, missed₀, fetched₀, htask₀, hr₀⟩
      · exact ⟨as, [_], s, r.2, rfl, hrun, hread, rfl, rfl⟩
      · exact (hs.fetched i keys₀ todo₀ missed₀ fetched₀ htask₀ r hr₀).concat _
    · have htask₀ : s.task i = .getting keys todo missed fetched :=
        (Function.update_of_ne hij _ _).symm.trans htask
      exact (hs.fetched i keys todo missed fetched htask₀ r hr).concat _
  · exact (hs.fetched i keys todo missed fetched htask r hr).concat _

theorem Traced.entry_step (hs : Traced lib s₀ as s) (hstep : s.step lib a = some s')
    (hsafe : TokenSafe s a) (k : Bytes) (d : Data) (hd : s'.view k = some d) (hpos : 0 < d.cas) :
    Accounted lib s₀ (as ++ [a]) s' k d.value d.cas := by
  have hlater := (hs.sound.of_step hstep).2
  rcases step_cases hstep with ⟨i, m, w, t, rfl, hmove, rfl⟩ | ⟨n, rfl, rfl⟩
  · -- the entry was there before, and the worker was not between its two writes
    have hkeep : (∀ item rest, s.task i ≠ .storing item rest) → s.view k = some d →
        Accounted lib s₀ (as ++ [.move i m]) ⟨w, Function.update s.task i t⟩ k d.value d.cas :=
      fun hi hd ↦ (hs.entry k d hd hpos).concat (hlater k) (fun hfly ↦ hfly.update hi) _
    -- the entry was added under the key `j`, or was there before
    have hadded : ∀ {j kv}, s.cacheAdd j kv = .ok w →
        (∀ item rest, s.task i ≠ .storing item rest) →
        (k = j → d = ⟨j, kv.val, kv.flags, kv.cas⟩ → Accounted lib s₀ (as ++ [.move i m])
          ⟨w, Function.update s.task i t⟩ k d.value d.cas) →
        Accounted lib s₀ (as ++ [.move i m]) ⟨w, Function.update s.task i t⟩ k d.value d.cas := by
      intro j kv hadd hi hnew
      obtain ⟨-, -, hput⟩ := hs.sound.wf.cacheAdd hadd
      by_cases hk : k = j
      · subst hk
        exact hnew rfl (Stores.stored_eq_some (hput.same.symm.trans hd)).2
      · rcases hput.other k hk with hnone | hsame
        · exact absurd (hnone.symm.trans hd) (by simp)
        · exact hkeep hi (hsame.symm.trans hd)
    generalize htask : s.task i = t₀ at hmove
    have hi : (∀ item rest, t₀ ≠ .storing item rest) →
        ∀ item rest, s.task i ≠ .storing item rest := by
      rw [htask]
      exact id
    cases hmove with
    | begin _ => exact hkeep (hi (by simp)) hd
    | lookup hget =>
      refine hkeep (hi (by simp)) ?_
      rw [← (hs.sound.wf.cacheGet hget).2.2.1]
      exact hd
    | read _ => exact hkeep (hi (by simp)) hd
    | @fill _ _ _ r _ hr _ hadd =>
      refine hadded hadd (hi (by simp)) fun hk hdata ↦ Or.inl ?_
      have hcur := (hs.fetched i _ _ _ _ htask r hr).concat (.move i (.fill r))
      rw [hdata, hk]
      exact hcur
    | @cacheWrite item rest _ hadd =>
      refine hadded hadd (hi (by simp)) fun hk hdata ↦ Or.inr (Or.inr ?_)
      rw [hdata] at hpos ⊢
      obtain ⟨hprop, hlt⟩ := hsafe item rest htask hpos
      refine ⟨hlt.trans_le (hlater k).nextCas_le, i, item, rest, ?_, hk.symm, rfl, rfl⟩
      exact (Function.update_self _ _ _).trans (if_neg (by simp [hprop]))
    | @memcWrite item rest =>
      rcases hs.entry k d hd hpos with hcur | hdead | ⟨hlt, j, item', rest', htask', hitem'⟩
      · exact Or.inl (hcur.concat _)
      · exact Or.inr (Or.inl (hdead.later (hlater k)))
      · by_cases hji : j = i
        · -- the `cas` in flight has just reached memcached
          subst hji
          rw [htask] at htask'
          cases htask'
          obtain ⟨rfl, -, hcas⟩ := hitem'
          rw [← hcas] at hpos hlt ⊢
          exact Or.inr (Or.inl (Store.dead_put hpos hlt))
        · refine Or.inr (Or.inr ⟨hlt.trans_le (hlater k).nextCas_le, j, item', rest', ?_, hitem'⟩)
          exact (Function.update_of_ne hji _ _).trans htask'
    | incr => exact hkeep (hi (by simp)) hd
    | finish hne => exact hkeep (hi hne) hd
  · exact (hs.entry k d hd hpos).concat (hlater k) id _

/-- **Every run with safe tokens is accounted for.** -/
theorem traced_of_run (hsound : s₀.Sound) (hview : s₀.view = fun _ ↦ none)
    (hidle : s₀.Quiescent) (hrun : Run (Guarded (StepOf (step lib)) TokenSafe) s₀ as s) :
    Traced lib s₀ as s := by
  induction hrun with
  | nil =>
    refine ⟨hsound, ?_, ?_⟩
    · intro k d hd
      rw [hview] at hd
      cases hd
    · intro i keys todo missed fetched htask
      rw [hidle i] at htask
      cases htask
  | snoc hrun hstep ih =>
    refine ⟨(ih.sound.of_step hstep.1).1, ih.entry_step hstep.1 hstep.2, ?_⟩
    exact ih.fetched_step hrun.of_guarded hstep.1

/-- The value and the token of a reply belong together. -/
theorem Traced.wasCurrent_of_replies (hs : Traced lib s₀ as s) (hstep : s.step lib a = some s')
    (hsafe : TokenSafe s a) (hreply : s.Replies a k v t) (hpos : 0 < t)
    (hlive : ¬s.memc.Dead k t) : WasCurrent lib s₀ as k v t := by
  rcases hreply with ⟨i, keys, todo, missed, fetched, d, rfl, htask, hd, rfl, rfl⟩ |
    ⟨i, r, rfl, rfl, rfl, rfl⟩ | ⟨i, -, -, -, rfl⟩
  · rcases hs.entry k d hd hpos with hcur | hdead | ⟨-, hfly⟩
    · exact hcur
    · exact absurd hdead hlive
    · exact absurd hfly (hsafe keys k todo missed fetched htask d hd hpos)
  · rcases step_cases hstep with ⟨j, m, w, t, hmove, hadv, -⟩ | ⟨n, hn, -⟩
    · cases hmove
      generalize htask : s.task i = t₀ at hadv
      cases hadv with
      | fill hr _ _ => exact hs.fetched i _ _ _ _ htask r hr
    · cases hn
  · exact absurd hpos (lt_irrefl 0)

/-- The item that a `cas` with a positive token replaces. -/
theorem CasApplied.lookup (h : s.CasApplied a k t) (hpos : 0 < t) :
    ∃ it, s.memc.lookup k = some it ∧ it.cas = t := by
  obtain ⟨i, item, rest, -, -, rfl, rfl, hacc⟩ := h
  rw [Store.Accepts, if_pos hpos] at hacc
  exact hacc

/-- After a `cas` with a positive token that was issued, its token is of no use any more. -/
theorem CasApplied.dead (hs : s.Sound) (h : s.CasApplied a k t) (hpos : 0 < t)
    (hstep : s.step lib a = some s') : s'.memc.Dead k t := by
  obtain ⟨it, hit, hcas⟩ := h.lookup hpos
  have hlt := hs.issued k it (Store.lookup_eq_some_iff.mp hit).1
  rw [hcas] at hlt
  obtain ⟨i, item, rest, rfl, htask, rfl, rfl, -⟩ := h
  rcases step_cases hstep with ⟨j, m, w, t, hmove, hadv, rfl⟩ | ⟨n, hn, -⟩
  · cases hmove
    rw [htask] at hadv
    cases hadv
    exact Store.dead_put hpos hlt
  · cases hn

end System

private theorem cacheWF_and_view_of_start {w : Stores}
    (h : w.cache = none ∨ ∃ capacity strHash, w.cache = some (.new capacity strHash)) :
    w.CacheWF ∧ w.view = fun _ ↦ none := by
  obtain ⟨cache, memc⟩ := w
  rcases h with rfl | ⟨capacity, strHash, rfl⟩
  · exact ⟨Stores.cacheWF_of_cache_eq_none rfl, rfl⟩
  · exact ⟨Stores.cacheWF_new capacity strHash memc, rfl⟩

/-- **No lost update with a positive token.** Take any number of clients and workers, with a cache
or without, and a run with safe tokens. A reply gives the value `v` and the positive token `t` for
the key `k`, and later a `cas` with this token is applied. Then there was a moment before the reply
when memcached held `v` under `t`, and from that moment on until the `cas` it held the same item in
every state; and no later `cas` with `t` is applied. -/
theorem no_lost_update (lib : Libmemcached) {w₀ : Stores}
    (hcache : w₀.cache = none ∨ ∃ capacity strHash, w₀.cache = some (.new capacity strHash))
    (hissued : w₀.memc.TokensIssued) {as₁ as₂ : List Action} {s₁ s₂ : System} {a b : Action}
    {k v : Bytes} {t : ℕ}
    (hrun₁ : Run (Guarded (StepOf (System.step lib)) System.TokenSafe) (.init w₀) as₁ s₁)
    (hreply : s₁.Replies a k v t) (hpos : 0 < t)
    (hrun₂ : Run (Guarded (StepOf (System.step lib)) System.TokenSafe) s₁ (a :: as₂) s₂)
    (hcas : s₂.CasApplied b k t) :
    (∃ pre post u it, as₁ = pre ++ post ∧ Run (StepOf (System.step lib)) (.init w₀) pre u ∧
      u.memc.lookup k = some it ∧ it.value = v ∧ it.cas = t ∧
      ∀ mid rest x, post ++ a :: as₂ = mid ++ rest → Run (StepOf (System.step lib)) u mid x →
        x.memc.items k = some it) ∧
    ∀ as₃ s₃ c, Run (StepOf (System.step lib)) s₂ (b :: as₃) s₃ → ¬s₃.CasApplied c k t := by
  obtain ⟨hwf, hview⟩ := cacheWF_and_view_of_start hcache
  have hsound₀ : (System.init w₀).Sound := ⟨hwf, hissued⟩
  have htraced := System.traced_of_run hsound₀ hview (fun _ ↦ rfl) hrun₁
  obtain ⟨hsound₂, hlater₂⟩ := htraced.sound.of_run hrun₂.of_guarded
  obtain ⟨it₂, hit₂, hcas₂⟩ := hcas.lookup hpos
  constructor
  · obtain ⟨s₁', hstep, -⟩ := hrun₂.of_cons
    have hlive : ¬s₁.memc.Dead k t := fun hdead ↦ (hdead.later (hlater₂ k)).2 it₂ hit₂ hcas₂
    obtain ⟨pre, post, u, it, rfl, hpre, hit, hv, ht⟩ :=
      htraced.wasCurrent_of_replies hstep.1 hstep.2 hreply hpos hlive
    refine ⟨pre, post, u, it, rfl, hpre, hit, hv, ht, ?_⟩
    intro mid rest x hmid hx
    have hsoundu := (hsound₀.of_run hpre).1
    have hitems := (Store.lookup_eq_some_iff.mp hit).1
    -- the rest of the run leads from `x` to the state of the `cas`
    have hpost : Run (StepOf (System.step lib)) u (mid ++ rest) s₂ := by
      obtain ⟨u', hpre', hpost⟩ := hrun₁.of_guarded.of_append
      obtain rfl := hpre'.eq_of_functional (functional_stepOf _) hpre
      rw [← hmid]
      exact hpost.append hrun₂.of_guarded
    obtain ⟨x', hx', hrest⟩ := hpost.of_append
    obtain rfl := hx'.eq_of_functional (functional_stepOf _) hx
    obtain ⟨hsoundx, hlaterx⟩ := hsoundu.of_run hx'
    have hitems₂ := (Store.lookup_eq_some_iff.mp hit₂).1
    exact Store.Later.items_eq hsoundu.issued (hlaterx k) ((hsoundx.of_run hrest).2 k) hitems
      hitems₂ (hcas₂.trans ht.symm)
  · intro as₃ s₃ c hrun₃ hcas₃
    obtain ⟨s₂', hstep, hrest⟩ := hrun₃.of_cons
    have hdead := hcas.dead hsound₂ hpos hstep
    have hsound₂' := (hsound₂.of_step hstep).1
    obtain ⟨it₃, hit₃, hcas₃⟩ := hcas₃.lookup hpos
    exact (hdead.later ((hsound₂'.of_run hrest).2 k)).2 it₃ hit₃ hcas₃

/-- The key `k` is set to `v` if it still has the token `t`. -/
def casItem (v : Bytes) (t : ℕ) : KeyValue :=
  { key? := some [107], val? := some v, cas? := some t }

/-- A worker takes up a SET of one item, as far as the cache. -/
def beginSet (i : ℕ) (kv : KeyValue) : List Action :=
  [.move i (.begin (.set [kv])), .move i .cacheWrite]

/-- A check of `TokenSafe` for a cache without tokens. -/
def tokenCheck (s : System) : Action → Bool
  | .move i .lookup =>
    match s.task i with
    | .getting _ (k :: _) _ _ => s.view k = none
    | _ => true
  | .move i .cacheWrite =>
    match s.task i with
    | .setting (item :: _) => !item.noPropagate && item.cas < s.memc.nextCas
    | _ => true
  | _ => true

private theorem tokenSafe_of_tokenCheck (s : System) (a : Action) (h : tokenCheck s a = true) :
    s.TokenSafe a := by
  rw [tokenCheck.eq_def] at h
  split at h
  · intro keys k todo missed fetched htask d hd
    rw [htask] at h
    exact absurd ((of_decide_eq_true h).symm.trans hd) (by simp)
  · intro item rest htask _
    rw [htask] at h
    simpa using h
  · next hlook hwrite =>
    rw [System.TokenSafe.eq_def]
    split
    · exact absurd rfl (hlook _)
    · exact absurd rfl (hwrite _)
    · trivial

theorem no_lost_update_readOld : ∃ s₂ : System,
    s₂.CasApplied (.move 1 .memcWrite) [107] 1 ∧
      ∃ (u : System) (it : Item), u.memc.lookup [107] = some it ∧ it.value = [48] ∧ it.cas = 1 := by
  obtain ⟨s₂, hrun, hsnap⟩ := exists_run_of_execChecked tokenSafe_of_tokenCheck
    (show (execChecked (System.step .inOrder) tokenCheck (.init oldStores)
      (readOld ++ (fillOld ++ beginSet 1 (casItem [49] 1)))).map
        (fun s ↦ (s.task 1, s.memc.lookup [107]))
        = some (.storing (casItem [49] 1) [], some ⟨[48], 0, 1, none⟩) by decide +kernel)
  obtain ⟨htask, hlook⟩ := Prod.mk.injEq _ _ _ _ ▸ hsnap
  have hcas : s₂.CasApplied (.move 1 .memcWrite) [107] 1 := by
    refine ⟨1, _, _, rfl, htask, rfl, rfl, ?_⟩
    rw [Store.Accepts, if_pos (by decide)]
    exact ⟨_, hlook, rfl⟩
  have hissued : oldStores.memc.TokensIssued := by
    have hempty : ({} : Store).TokensIssued := by
      rintro k it ⟨⟩
    exact hempty.writesAt (Or.inr ⟨[48], 0, none, rfl⟩)
  obtain ⟨s₁, hrun₁, hrun₂⟩ := hrun.of_append
  have hreply : s₁.Replies (.move 0 (.fill ([107], ⟨[48], 0, 1, none⟩))) [107] [48] 1 :=
    Or.inr (Or.inl ⟨0, _, rfl, rfl, rfl, rfl⟩)
  obtain ⟨⟨pre, post, u, it, -, -, hit, hv, ht, -⟩, -⟩ := no_lost_update .inOrder
    (Or.inr ⟨0, _, rfl⟩) hissued hrun₁ hreply Nat.one_pos hrun₂ hcas
  exact ⟨s₂, hcas, u, it, hit, hv, ht⟩

/-- A SET of one item, and the rest of it after `beginSet`. -/
def finishSet (i : ℕ) : List Action := [.move i .memcWrite, .move i .finish]

/-- An update is lost with the token zero. The key was set through the router, so the cache has it
without a token and `gets` returns zero. Two `cas` with this token are both applied, the second one
over the first. -/
theorem lost_update_token_zero : ∃ s₁ s₂ s₃ : System,
    Run (StepOf (System.step .inOrder)) (.init ⟨some (.new 0 fun _ ↦ 0), {}⟩)
        (beginSet 0 setOne ++ finishSet 0 ++ [.move 0 (.begin (.get [[107]]))]) s₁ ∧
      s₁.Replies (.move 0 .lookup) [107] [49] 0 ∧
      Run (StepOf (System.step .inOrder)) s₁
        (.move 0 .lookup :: .move 0 .finish :: beginSet 1 (casItem [50] 0)) s₂ ∧
      s₂.CasApplied (.move 1 .memcWrite) [107] 0 ∧
      Run (StepOf (System.step .inOrder)) s₂
        (.move 1 .memcWrite :: .move 1 .finish :: beginSet 2 (casItem [51] 0)) s₃ ∧
      s₃.CasApplied (.move 2 .memcWrite) [107] 0 := by
  have hstep : ∀ kv : KeyValue, kv.cas = 0 → kv.allowReplace = true → ∀ s : Store,
      s.Accepts kv := by
    intro kv hcas hrep s
    rw [Store.Accepts, if_neg (by simp [hcas])]
    exact Or.inl hrep
  obtain ⟨s₁, hrun₁, hsnap₁⟩ := exists_run_of_exec (show (exec (System.step .inOrder)
    (.init ⟨some (.new 0 fun _ ↦ 0), {}⟩)
      (beginSet 0 setOne ++ finishSet 0 ++ [.move 0 (.begin (.get [[107]]))])).map
      (fun s ↦ (s.task 0, s.view [107]))
      = some (.getting [[107]] [[107]] [] [], some ⟨[107], [49], 0, 0⟩) by decide +kernel)
  obtain ⟨s₃, hrun₃, htask₃⟩ := exists_run_of_exec (show (exec (System.step .inOrder)
    (.init ⟨some (.new 0 fun _ ↦ 0), {}⟩)
      ((beginSet 0 setOne ++ finishSet 0 ++ [.move 0 (.begin (.get [[107]]))]) ++
        ((.move 0 .lookup :: .move 0 .finish :: beginSet 1 (casItem [50] 0)) ++
        (.move 1 .memcWrite :: .move 1 .finish :: beginSet 2 (casItem [51] 0))))).map
      (fun s ↦ s.task 2) = some (.storing (casItem [51] 0) []) by decide +kernel)
  obtain ⟨s₂, hrun₂, htask₂⟩ := exists_run_of_exec (show (exec (System.step .inOrder)
    (.init ⟨some (.new 0 fun _ ↦ 0), {}⟩)
      ((beginSet 0 setOne ++ finishSet 0 ++ [.move 0 (.begin (.get [[107]]))]) ++
        (.move 0 .lookup :: .move 0 .finish :: beginSet 1 (casItem [50] 0)))).map
      (fun s ↦ s.task 1) = some (.storing (casItem [50] 0) []) by decide +kernel)
  obtain ⟨htask₁, hview₁⟩ := Prod.mk.injEq _ _ _ _ ▸ hsnap₁
  obtain ⟨s₁', hpre₁, hrest₁⟩ := hrun₃.of_append
  obtain rfl := hpre₁.eq_of_functional (functional_stepOf _) hrun₁
  obtain ⟨s₂', hpre₂, hrest₂⟩ := hrest₁.of_append
  obtain rfl := (hrun₁.append hpre₂).eq_of_functional (functional_stepOf _) hrun₂
  exact ⟨_, _, s₃, hrun₁, Or.inl ⟨0, _, _, _, _, _, rfl, htask₁, hview₁, rfl, rfl⟩, hpre₂,
    ⟨1, _, _, rfl, htask₂, rfl, rfl, hstep _ rfl rfl _⟩, hrest₂,
    ⟨2, _, _, rfl, htask₃, rfl, rfl, hstep _ rfl rfl _⟩⟩

end MemcacheRouter
