import LibNeoos.Mpi.Simulation
/-!
# The system follows the plan

All ranks together: where each rank is in the plan, and what it took, make a
state of the plan (`absOf`). Every message a collective sent is one the plan
has sent, under the tag of its phase and with the content its call gives it,
and there is one for each send of the plan (`SysSim`). A step of the system is
a step of the plan or none (`sim_step`), so what is proved of the plan holds
in every run.
-/

namespace LibNeoos.Mpi

open LibNeoos.Lib LibNeoos.Lib.Phased

/-- The state of the plan. -/
def absOf (w : World) (C : Nat → Core) : St Nat :=
  ⟨fun r => (C r).ticks, fun r => (C r).done, fun r => tookOf w r (C r).got⟩

/-- Sender and phase of the messages of collectives. -/
def keys (l : List Msg) : List (Nat × Nat) :=
  l.filterMap fun m =>
    match m.origin with
    | .coll x _ q => some (x, q)
    | _ => none

/-- A message of the plan: call `i` of rank `x` sent it in phase `q`. -/
structure SentOk (w : World) (C : Nat → Core) (p : Packet) (x i q : Nat) : Prop where
  sent : Sent w.plan (absOf w C) x q p.dst
  tag : p.msg.frame.hdr.tag = w.plan.tag q p.dst
  low : w.phases x i < q
  high : q ≤ w.phases x (i + 1)
  pay : ∃ op, (w.prog x)[i]? = some op ∧ op.pay (elemAt w.elems q) (before (C x).got i q) p.msg.frame.data

structure SysSim (w : World) (Z : Nat → Prop) (C : Nat → Core) (ps : List Packet) : Prop where
  rank : ∀ r < w.n, RankSim w Z r (C r)
  inv : Inv w.plan (absOf w C)
  exact : Exact Z (absOf w C)
  sent : ∀ p ∈ ps, ∀ x i q, p.msg.origin = .coll x i q → SentOk w C p x i q
  uniq : ∀ d, (keys (msgsTo d ps)).Nodup
  there : ∀ x q d, Sent w.plan (absOf w C) x q d → ∃ m i, (⟨d, m⟩ : Packet) ∈ ps ∧ m.origin = .coll x i q

/-! ## Messages -/

section
variable {w : World} {C : Nat → Core} {r : Nat} {c' : Core}

@[simp] theorem keys_append (l l' : List Msg) : keys (l ++ l') = keys l ++ keys l' := List.filterMap_append

theorem mem_keys {l : List Msg} {x q : Nat} : (x, q) ∈ keys l ↔ ∃ m ∈ l, ∃ i, m.origin = .coll x i q := by
  simp only [keys, List.mem_filterMap]
  refine exists_congr fun m => and_congr_right fun _ => ?_
  cases m.origin with
  | coll y i k =>
    simp only [Option.some.injEq, Prod.mk.injEq, Origin.coll.injEq]
    exact ⟨fun ⟨h1, h2⟩ => ⟨i, h1, rfl, h2⟩, fun ⟨_, h1, _, h2⟩ => ⟨h1, h2⟩⟩
  | _ => simp

theorem keys_apps (l : List Msg) : keys (apps l) = keys l := by
  unfold keys apps
  rw [List.filterMap_filter]
  refine List.filterMap_congr fun m _ => ?_
  cases m.origin <;> simp [Origin.app]

/-- The messages held for a rank are sent once each, so they have distinct keys. -/
theorem keys_held_nodup {s : Sys} {x : Nat} (hsub : (apps (s.held x)).Subperm (msgsTo x s.sent))
    (hu : (keys (msgsTo x s.sent)).Nodup) : (keys (s.held x)).Nodup := by
  obtain ⟨l, hp, hs⟩ := hsub
  have h1 : (keys l).Nodup := hu.sublist (hs.filterMap _)
  have h2 : (keys l).Perm (keys (apps (s.held x))) := hp.filterMap _
  rw [← keys_apps]
  exact h2.nodup_iff.1 h1

theorem mem_tookOf {got : List Got} {t : Take Nat} (h : t ∈ tookOf w r got) :
    ∃ g ∈ got, w.isColl r g.call = true ∧ t.during = g.during ∧ ∃ i, g.msg.origin = .coll t.src i t.phase := by
  obtain ⟨g, hg, he⟩ := List.mem_filterMap.1 h
  split at he
  · rename_i hc
    split at he <;> cases he
    rename_i ho
    exact ⟨g, hg, hc, rfl, _, ho⟩
  · cases he

/-- A message at hand has not been taken: it would have been sent twice. -/
theorem not_took_of_mail {s : Sys} (hsub : (apps (s.held r)).Subperm (msgsTo r s.sent))
    (hu : (keys (msgsTo r s.sent)).Nodup) {m : Msg} {x i q : Nat} (hm : m ∈ (s.rank r).mail)
    (ho : m.origin = .coll x i q) : ¬ Took (absOf w s.core) r x q := by
  rintro ⟨t, ht, rfl, rfl⟩
  obtain ⟨g, hg, -, -, j, hgo⟩ := mem_tookOf ht
  have hnd := keys_held_nodup hsub hu
  unfold Sys.held at hnd
  rw [keys_append, keys_append] at hnd
  have h1 : (t.src, t.phase) ∈ keys (msgsTo r s.net) ++ keys (s.rank r).mail :=
    List.mem_append_right _ (mem_keys.2 ⟨m, hm, i, ho⟩)
  have h2 : (t.src, t.phase) ∈ keys (s.rank r).taken := mem_keys.2 ⟨g.msg, List.mem_map_of_mem hg, j, hgo⟩
  exact List.disjoint_of_nodup_append hnd h1 h2

/-- A message a collective of rank `r` may take next: a message of the plan
that `r` has not taken. -/
theorem recv_facts {s : Sys} {Z : Nat → Prop} (hw : Lawful w) (hl : Labelled w s)
    (hsub : ∀ x, (apps (s.held x)).Subperm (msgsTo x s.sent)) (hi : SysSim w Z s.core s.sent) (hr : r < w.n)
    {src : Option Nat} {m : Msg} (ha : (w.plan.acts (s.core r).ticks r)[(s.core r).done]? = some (.recv src))
    (hm : m ∈ (s.rank r).mail) (hacc : accepts (selector src) (w.plan.tag (s.core r).ticks r) m = true) :
    ∃ x i q, m.origin = .coll x i q ∧ x < w.n ∧ FromOk src x ∧ SentOk w s.core ⟨r, m⟩ x i q ∧
      w.plan.tag q r = w.plan.tag (s.core r).ticks r ∧ ¬ Took (absOf w s.core) r x q := by
  have hheld : m ∈ s.held r := by simp [Sys.held, hm]
  have hok := hl.held r m hheld
  -- the tag of a collective is not the handshake's and no application sends it
  have hbase := base_recv (show .recv src ∈ (elemAt w.elems (s.core r).ticks).acts w.n r by
    rw [← plan_acts hr]; exact List.mem_of_getElem? ha)
  obtain ⟨hlo, hhi⟩ := coll_tag_range (s.core r).ticks hbase.1 hbase.2
  obtain ⟨hsrc, htag⟩ := accepts_iff.1 hacc
  replace htag : m.frame.hdr.tag = w.plan.tag (s.core r).ticks r := by
    refine htag.resolve_left fun h => ?_
    replace h : coll_tag ((elemAt w.elems (s.core r).ticks).base r) (s.core r).ticks = MPI_ANY_TAG := h
    rw [h] at hlo
    simp at hlo
  have htag' : m.frame.hdr.tag = coll_tag ((elemAt w.elems (s.core r).ticks).base r) (s.core r).ticks := htag
  rw [← htag'] at hlo hhi
  cases ho : m.origin with
  | hello x =>
    simp only [MsgOk, ho] at hok
    rw [hok] at hhi
    simp [token] at hhi
  | go =>
    simp only [MsgOk, ho] at hok
    rw [hok] at hhi
    simp at hhi
  | user x i =>
    simp only [MsgOk, ho] at hok
    obtain ⟨hx, op, hop, hcall, hframe⟩ := hok
    have ht := hw.tags x hx op (List.mem_of_getElem? hop)
    cases op with
    | send buf count type dest tag comm =>
      rw [hframe.2.2] at hlo
      exact absurd ht (not_le.2 hlo)
    | recv => exact hframe.2.2.elim
    | _ => cases hcall
  | coll x i q =>
    simp only [MsgOk, ho] at hok
    obtain ⟨hx, op, hop, hcall, hframe⟩ := hok
    have hsent : m ∈ msgsTo r s.sent := (hsub r).subset (List.mem_filter.2 ⟨hheld, by simp [ho, Origin.app]⟩)
    have hso := hi.sent _ (mem_msgsTo.1 hsent) x i q ho
    refine ⟨x, i, q, rfl, hx, ?_, hso, hso.tag.symm.trans htag, ?_⟩
    · cases src with
      | none => exact .inl rfl
      | some y =>
        refine .inr (congrArg some ?_)
        have h1 : m.frame.hdr.src = (y : Int) := hsrc.resolve_left (by simp [selector])
        rw [show m.frame.hdr.src = (x : Int) from hframe.2.1] at h1
        exact_mod_cast h1.symm
    · exact not_took_of_mail (hsub r) (hi.uniq r) hm ho

/-! ## Steps -/

theorem absOf_update (C : Nat → Core) (r : Nat) (c' : Core) : absOf w (Function.update C r c') =
    ⟨Function.update (absOf w C).phase r c'.ticks, Function.update (absOf w C).done r c'.done,
      Function.update (absOf w C).took r (tookOf w r c'.got)⟩ := by
  unfold absOf
  simp only [St.mk.injEq]
  refine ⟨funext fun x => ?_, funext fun x => ?_, funext fun x => ?_⟩ <;> by_cases hx : x = r
  all_goals first | (subst hx; simp) | simp [hx]

theorem doneActs_now (C : Nat → Core) (r : Nat) :
    doneActs w.plan (absOf w C) (C r).ticks r = (w.plan.acts (C r).ticks r).take (C r).done := doneActs_cur

theorem absOf_stutter (h1 : c'.ticks = (C r).ticks) (h2 : c'.done = (C r).done)
    (h3 : tookOf w r c'.got = tookOf w r (C r).got) : absOf w (Function.update C r c') = absOf w C := by
  rw [absOf_update, h1, h2, h3]
  simp [absOf]

theorem absOf_tick (h1 : c'.ticks = (C r).ticks + 1) (h2 : c'.done = 0) (h3 : c'.got = (C r).got) :
    absOf w (Function.update C r c') = (absOf w C).tick r := by
  rw [absOf_update, h1, h2, h3]
  simp [St.tick, absOf]

theorem absOf_act (h1 : c'.ticks = (C r).ticks) (h2 : c'.done = (C r).done + 1) (h3 : c'.got = (C r).got) :
    absOf w (Function.update C r c') = (absOf w C).act r := by
  rw [absOf_update, h1, h2, h3]
  simp [St.act, absOf]

theorem absOf_take {m : Msg} {x i q : Nat} (h1 : c'.ticks = (C r).ticks) (h2 : c'.done = (C r).done + 1)
    (h3 : c'.got = (C r).got ++ [⟨(C r).rets.length, (C r).ticks, m⟩]) (hcoll : w.isColl r (C r).rets.length = true)
    (ho : m.origin = .coll x i q) : absOf w (Function.update C r c') = (absOf w C).take r x q := by
  rw [absOf_update, h1, h2, h3, tookOf_append]
  simp [St.take, St.act, absOf, tookOf, hcoll, ho]

variable {Z : Nat → Prop} {ps new : List Packet}

/-- A message of the plan stays one. -/
theorem SentOk.mono {p : Packet} {x i q : Nat} (h : SentOk w C p x i q)
    (hmono : Sent w.plan (absOf w C) x q p.dst → Sent w.plan (absOf w (Function.update C r c')) x q p.dst)
    (hgot : c'.got = (C r).got ∨ ∃ m, c'.got = (C r).got ++ [⟨(C r).rets.length, (C r).ticks, m⟩]) :
    SentOk w (Function.update C r c') p x i q := by
  refine ⟨hmono h.sent, h.tag, h.low, h.high, ?_⟩
  obtain ⟨op, hop, hpay⟩ := h.pay
  refine ⟨op, hop, ?_⟩
  by_cases hx : x = r
  · subst hx
    rw [Function.update_self]
    rcases hgot with hg | ⟨m, hg⟩ <;> rw [hg]
    · exact hpay
    · -- what the call takes from now on it takes in phase `q` or later
      rw [before_append (C x).got (phase_of_mem h.sent).1]
      exact hpay
  · rw [Function.update_of_ne hx]
    exact hpay

theorem SysSim.update (hi : SysSim w Z C ps) (hrank : RankSim w Z r c')
    (hstep : absOf w (Function.update C r c') = absOf w C ∨
      Step w.plan (absOf w C) (absOf w (Function.update C r c')))
    (hx : Exact Z (absOf w (Function.update C r c')))
    (hgot : c'.got = (C r).got ∨ ∃ m, c'.got = (C r).got ++ [⟨(C r).rets.length, (C r).ticks, m⟩])
    (hnew : ∀ p ∈ new, ∀ x i q, p.msg.origin = .coll x i q → SentOk w (Function.update C r c') p x i q)
    (huniq : ∀ d, (keys (msgsTo d (ps ++ new))).Nodup)
    (hthere : ∀ x q d, Sent w.plan (absOf w (Function.update C r c')) x q d → Sent w.plan (absOf w C) x q d ∨
      ∃ m i, (⟨d, m⟩ : Packet) ∈ new ∧ m.origin = .coll x i q) :
    SysSim w Z (Function.update C r c') (ps ++ new) := by
  refine ⟨fun x hxn => ?_, ?_, hx, fun p hp x i q ho => ?_, huniq, fun x q d hs => ?_⟩
  · by_cases hxr : x = r
    · subst hxr; rw [Function.update_self]; exact hrank
    · rw [Function.update_of_ne hxr]; exact hi.rank x hxn
  · rcases hstep with h | h
    · rw [h]; exact hi.inv
    · exact inv_step h hi.inv
  · rcases List.mem_append.1 hp with hp | hp
    · refine (hi.sent p hp x i q ho).mono (fun hs => ?_) hgot
      rcases hstep with h | h
      · rw [h]; exact hs
      · exact doneActs_mono h hs
    · exact hnew p hp x i q ho
  · rcases hthere x q d hs with h | ⟨m, i, hm, ho⟩
    · obtain ⟨m, i, hm, ho⟩ := hi.there x q d h
      exact ⟨m, i, List.mem_append_left _ hm, ho⟩
    · exact ⟨m, i, List.mem_append_right _ hm, ho⟩

theorem keys_eq_nil {l : List Msg} (h : ∀ m ∈ l, ∀ x i q, m.origin ≠ .coll x i q) : keys l = [] := by
  refine List.eq_nil_iff_forall_not_mem.2 fun ⟨x, q⟩ hk => ?_
  obtain ⟨m, hm, i, ho⟩ := mem_keys.1 hk
  exact h m hm x i q ho

/-- A step that sends no message of a collective. -/
theorem uniq_silent (hi : SysSim w Z C ps) (h : ∀ p ∈ new, ∀ x i q, p.msg.origin ≠ .coll x i q) (d : Nat) :
    (keys (msgsTo d (ps ++ new))).Nodup := by
  rw [msgsTo_append, keys_append, keys_eq_nil (fun m hm => h ⟨d, m⟩ (mem_msgsTo.1 hm)), List.append_nil]
  exact hi.uniq d

/-- A rank sends to another once in a phase. -/
theorem uniq_send (hi : SysSim w Z C ps) (hr : r < w.n) {d i : Nat} {m : Datagram}
    (ha : (w.plan.acts (C r).ticks r)[(C r).done]? = some (.send d)) (x : Nat) :
    (keys (msgsTo x (ps ++ [⟨d, m, .coll r i (C r).ticks⟩]))).Nodup := by
  rw [msgsTo_append, keys_append]
  by_cases hx : d = x
  · subst hx
    refine List.nodup_append.2 ⟨hi.uniq d, by simp [msgsTo, keys], ?_⟩
    rintro k hk _ hk' rfl
    have hk2 : k = (r, (C r).ticks) := by simpa [msgsTo, keys] using hk'
    subst hk2
    obtain ⟨m', hm', j, ho⟩ := mem_keys.1 hk
    have hs := (hi.sent _ (mem_msgsTo.1 hm') r j _ ho).sent
    have h1 : Act.send d ∈ (w.plan.acts (C r).ticks r).take (C r).done := doneActs_now C r ▸ hs
    rw [World.plan, plan_acts hr] at h1 ha
    exact acts_send_once ha h1
  · have : msgsTo x [⟨d, m, .coll r i (C r).ticks⟩] = [] := by simp [msgsTo, hx]
    rw [this]
    simpa [keys] using hi.uniq x

end

/-- No system call of a started rank fails, except that a wait may be interrupted. -/
def calm (s : Sys) : Label → Bool
  | .rank r a => (s.rank r).calm a
  | .deliver _ => true

section
variable {w : World} {s s' : Sys} {l : Label} {Z : Nat → Prop}

/-- The call a message of the plan is from, and what it holds. -/
theorem SentOk.good (hw : Lawful w) {C : Nat → Core} {p : Packet} {x i q : Nat} (hx : x < w.n)
    (h : SentOk w C p x i q) : (elemAt w.elems q).Good p.msg.frame.data := by
  obtain ⟨op, hop, hpay⟩ := h.pay
  have he := elemAt_mem hw hx hop h.low h.high
  have hmem := List.mem_of_getElem? hop
  have hlink := (mem_plan_send.1 (phase_of_mem h.sent).2).2
  cases hc : op.call with
  | none => simp [Op.elems, hc] at he
  | some c =>
    have helems : op.elems w.n = c.elems w.n := by simp [Op.elems, hc]
    have hn : w.n ≠ 1 := by
      -- nobody sends to itself
      intro h1
      have := hlink.ne
      have hd : p.dst < w.n := by
        have hr := elemAt_rooted (elems_rooted w) q
        have hpos := w.pos
        cases hq : elemAt w.elems q <;> simp only [hq, Elem.Link, Elem.Rooted] at hlink hr <;> omega
      omega
    exact pay_good hc (hw.call_benign hx hop hc) (hw.fits x hx op hmem) hn (helems ▸ he) hpay

theorem append_ne_self {α : Type} (l : List α) (a : α) : l ≠ l ++ [a] := fun h => by
  simpa using congrArg List.length h

/-- A step of the system is a step of the plan or none. -/
theorem sim_step (hw : Lawful w) (hl : Labelled w s) (hsub : ∀ x, (apps (s.held x)).Subperm (msgsTo x s.sent))
    (hi : SysSim w Z s.core s.sent) (h : step w s l = some s') (hcalm : calm s l = true)
    (hd : ∀ r a, l = .rank r a → r < w.n → ¬ Doomed w Z r (s.core r))
    (hx : ∀ st', Step w.plan (absOf w s.core) st' → Exact Z st') : SysSim w Z s'.core s'.sent := by
  have hsent := step_sent h
  rcases sys_move h with ⟨r, a, c', rfl, hr, hm, hc⟩ | ⟨hc, hn⟩
  · rw [hc, hsent]
    rw [show (s.rank r).calm a = true from hcalm] at hm
    have hsim := hi.rank r hr
    have hgot := move_got hm
    have hdoom := hd r a rfl hr
    have heff := move_effect hsim hm
    generalize news w s (.rank r a) = out at hm heff
    cases heff with
    | stutter h1 h2 h3 h4 h5 =>
      have habs := absOf_stutter h1 h2 h3
      have hnone : ∀ p ∈ out.filter (·.msg.origin.app), ∀ x i q, p.msg.origin ≠ .coll x i q :=
        fun p hp => h5 p (List.mem_of_mem_filter hp)
      refine hi.update (move_rankSim hw hr hsim hm hdoom fun m hg hcoll => ?_) (.inl habs)
        (by rw [habs]; exact hi.exact) hgot
        (fun p hp x i q ho => absurd ho (hnone p hp x i q)) (uniq_silent hi hnone) fun x q d hs => .inl (habs ▸ hs)
      rw [h4 hcoll] at hg
      exact absurd hg (append_ne_self _ _)
    | tick h1 h2 h3 h4 h5 =>
      have habs := absOf_tick (w := w) h2 h3 h4
      have hst : Step w.plan (absOf w s.core) ((absOf w s.core).tick r) := .tick r h1
      subst h5
      refine hi.update (move_rankSim hw hr hsim hm hdoom fun m hg => ?_) (.inr (habs ▸ hst)) (habs ▸ hx _ hst) hgot
        (by simp) (uniq_silent hi (by simp)) fun x q d hs => .inl ?_
      · rw [h4] at hg
        exact absurd hg (append_ne_self _ _)
      · rw [habs] at hs
        exact (sent_tick h1).1 hs
    | @send d m op h1 h2 h3 h4 h5 h6 h7 h8 h9 h10 =>
      have habs := absOf_act (w := w) h2 h3 h4
      have hnext : next w.plan (absOf w s.core) r = some (.send d) := h1
      have hst : Step w.plan (absOf w s.core) ((absOf w s.core).act r) := .send r d hnext
      subst h5
      rw [show ([⟨d, m, .coll r (s.core r).rets.length (s.core r).ticks⟩] : List Packet).filter (·.msg.origin.app) =
        [⟨d, m, .coll r (s.core r).rets.length (s.core r).ticks⟩] from rfl]
      refine hi.update (move_rankSim hw hr hsim hm hdoom fun m hg => ?_) (.inr (habs ▸ hst)) (habs ▸ hx _ hst) hgot
        (fun p hp x i q ho => ?_) (uniq_send hi hr h1) fun x q d' hs => ?_
      · rw [h4] at hg
        exact absurd hg (append_ne_self _ _)
      · simp only [List.mem_singleton] at hp
        subst hp
        cases ho
        refine ⟨?_, h6, h8, h9, op, h7, ?_⟩
        · rw [habs]
          exact (sent_act hnext).2 (.inr ⟨rfl, rfl, rfl⟩)
        · rw [Function.update_self, h4]
          exact h10
      · rw [habs] at hs
        rcases (sent_act hnext).1 hs with hs | ⟨rfl, rfl, rfl⟩
        · exact .inl hs
        · exact .inr ⟨_, _, List.mem_singleton_self _, rfl⟩
    | @recv src m h1 h2 h3 h4 h5 h6 h7 h8 =>
      obtain ⟨x, i, q, ho, hxn, hfrom, hso, htag, hnot⟩ := recv_facts hw hl hsub hi hr h1 h7 h8
      have habs := absOf_take h2 h3 h4 h6 ho
      have hnext : next w.plan (absOf w s.core) r = some (.recv src) := h1
      have hst : Step w.plan (absOf w s.core) ((absOf w s.core).take r x q) :=
        .recv r src x q hnext hfrom hso.sent htag hnot
      subst h5
      refine hi.update (move_rankSim hw hr hsim hm hdoom fun m' hg hcoll => ?_) (.inr (habs ▸ hst))
        (habs ▸ hx _ hst) hgot
        (by simp) (uniq_silent hi (by simp)) fun y k d hs => .inl ?_
      · obtain rfl : m = m' := by
          rw [h4] at hg
          simpa using hg
        refine ⟨⟨x, i, q, ho⟩, fun hz => ?_⟩
        have hq : q = (s.core r).ticks := hx _ hst r ⟨(s.core r).ticks, x, q⟩ (by simp [St.take, absOf]) hz
        exact hq ▸ hso.good hw hxn
      · rw [habs] at hs
        exact (sent_take hnext).1 hs
  · rw [hc, hsent, hn]
    simpa using hi

end

end LibNeoos.Mpi
