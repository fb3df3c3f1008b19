import LibNeoos.Mpi.Ordinals
import LibNeoos.Mpi.Startup
/-!
# What collectives compute

In every run in which no system call fails and no rank is `2^24` collectives
ahead of another, each message a collective takes is one that the same
collective of another rank sent for it (`taken_facts`). So a reduction folds
every rank's contribution exactly once, and all ranks end a broadcast or an
`MPI_Allreduce` with the same bytes. Messages may be lost and user-level
receives may take messages of collectives: then ranks wait, but what returns
is right.
-/

namespace LibNeoos.Mpi

open LibNeoos.Lib LibNeoos.Lib.Phased

/-! ## Runs -/

section
variable {w : World} {s : Sys} {ok : Sys → Label → Sys → Prop}

theorem start_sim (w : World) (Z : Nat → Prop) : SysSim w Z start.core start.sent where
  rank r _ := start_rankSim w Z r
  inv := init_inv (plan_acts_zero w)
  exact r t ht := by cases ht
  sent p hp := by cases hp
  uniq d := by simp [start, msgsTo, keys]
  there x q d h := by
    have h1 := phase_of_mem h
    obtain rfl : q = 0 := Nat.le_zero.1 h1.1
    rw [plan_acts_zero] at h1
    simp at h1

/-- What a run keeps, for any way to show that receives take messages of their
own phase. -/
theorem run_sim {Z : Nat → Prop} (hw : Lawful w) (hcalm : ∀ s l s', ok s l s' → calm s l = true)
    (hd : ∀ s l s', SysSim w Z s.core s.sent → ok s l s' → ∀ r a, l = .rank r a → r < w.n →
      ¬ Doomed w Z r (s.core r))
    (hx : ∀ s l s', SysSim w Z s.core s.sent → ok s l s' → ∀ st', Step w.plan (absOf w s.core) st' → Exact Z st')
    (h : Run (step w) ok start s) : SysSim w Z s.core s.sent :=
  h.inv_reach (fun s => SysSim w Z s.core s.sent) (start_sim w Z) fun _ _ _ hr hi hok hst =>
    sim_step hw (run_labelled hr) (held_subperm hr) hi hst (hcalm _ _ _ hok) (hd _ _ _ hi hok) (hx _ _ _ hi hok)

/-- The conditions under which collectives are exact. -/
def Regular (w : World) (s : Sys) (l : Label) : Prop := calm s l = true ∧ Close w s

instance (w : World) (s : Sys) (l : Label) : Decidable (Regular w s l) := inferInstanceAs (Decidable (_ ∧ _))

theorem run_exact (hw : Lawful w) (hok : ∀ s l s', ok s l s' → Regular w s l) (h : Run (step w) ok start s) :
    SysSim w (fun _ => True) s.core s.sent :=
  run_sim hw (fun _ _ _ hl => (hok _ _ _ hl).1) (fun _ _ _ _ _ _ _ _ _ hd => hd.1 trivial)
    (fun _ _ _ hi hl _ hst => exact_step (plan_balanced (elems_rooted w)) (by norm_num) plan_apart hi.inv hi.exact
      (near_of_close hw hi (hok _ _ _ hl).2) hst) h

/-- Call `i` of rank `r` is `op` and has returned `MPI_SUCCESS`. -/
structure Succeeded (w : World) (s : Sys) (r i : Nat) (op : Op) (a : Ret) : Prop where
  rank : r < w.n
  prog : (w.prog r)[i]? = some op
  ret : (s.rank r).rets[i]? = some a
  rc : a.rc = MPI_SUCCESS

end

/-! ## The collectives of a rank -/

/-- The collective calls of a rank. -/
def World.coll (w : World) (x : Nat) : List Op := (w.prog x).filter (·.call.isSome)

section
variable {w : World} {r i : Nat} {op : Op}

theorem filterMap_call_length (l : List Op) : (l.filterMap Op.call).length = (l.filter (·.call.isSome)).length := by
  rw [List.length_filterMap_eq_countP, List.countP_eq_length_filter]

theorem coll_colls (h : (w.prog r)[i]? = some op) (hc : op.call.isSome = true) :
    (w.coll r)[w.colls r i]? = some op := by
  obtain ⟨hi, he⟩ := List.getElem?_eq_some_iff.1 h
  unfold World.coll
  conv_lhs => rw [← List.take_append_drop i (w.prog r), List.filter_append]
  rw [World.colls, filterMap_call_length, List.getElem?_append_right (Nat.le_refl _), Nat.sub_self,
    List.drop_eq_getElem_cons hi, he, List.filter_cons, if_pos hc]
  rfl

theorem RankSim.doneActs_past {Z : Nat → Prop} {C : Nat → Core} (hi : RankSim w Z r (C r)) {q : Nat}
    (h1 : i < (C r).rets.length) (h2 : q ≤ w.phases r (i + 1)) :
    doneActs w.plan (absOf w C) q r = w.plan.acts q r := by
  have h3 := @phases_mono w r (i + 1) (C r).rets.length (by omega)
  have h4 := hi.low
  rcases Nat.lt_or_eq_of_le (show q ≤ (C r).ticks by omega) with hlt | rfl
  · exact doneActs_of_lt hlt
  · -- the rank has not gone on since
    have hdone : ¬ (C r).done < (w.plan.acts (C r).ticks r).length := fun h => by
      have := (hi.in_call h).2.2
      omega
    rw [doneActs_now, List.take_of_length_le (by omega)]

end

/-! ## Contributions -/

/-- What a rank contributes to its `k`-th collective, a reduction. -/
def World.contribution (w : World) (k x : Nat) : List UInt8 :=
  match (w.coll x)[k]? with
  | some (.reduce sendbuf _ count type _ _ _) => sendbuf.take (bytes count type).toNat
  | some (.allreduce sendbuf _ count type _ _) => sendbuf.take (bytes count type).toNat
  | _ => []

section
variable {w : World} {r i x j : Nat} {sendbuf recvbuf : List UInt8} {count type f root comm : Int}

theorem contribution_reduce (hop : (w.prog x)[j]? = some (.reduce sendbuf recvbuf count type f root comm)) :
    w.contribution (w.colls x j) x = sendbuf.take (bytes count type).toNat := by
  unfold World.contribution
  rw [coll_colls hop rfl]

theorem contribution_allreduce (hop : (w.prog x)[j]? = some (.allreduce sendbuf recvbuf count type f comm)) :
    w.contribution (w.colls x j) x = sendbuf.take (bytes count type).toNat := by
  unfold World.contribution
  rw [coll_colls hop rfl]

theorem contribution_eq {root len : Nat} {op : Op} {old : List (List UInt8)} {d : List UInt8}
    (hop : (w.prog x)[j]? = some op) (he : .reduce root len ∈ op.elems w.n) (hpay : op.pay (.reduce root len) old d) :
    d = w.contribution (w.colls x j) x := by
  cases op with
  | reduce sendbuf recvbuf count type op root' comm =>
    rw [contribution_reduce hop]
    simp only [Op.elems, Op.call, Option.map_some, Option.getD_some, Call.elems] at he
    split_ifs at he
    · simp at he
    · simp only [List.mem_singleton, Elem.reduce.injEq] at he
      obtain ⟨-, rfl⟩ := he
      exact hpay
  | allreduce sendbuf recvbuf count type op comm =>
    rw [contribution_allreduce hop]
    simp only [Op.elems, Op.call, Option.map_some, Option.getD_some, Call.elems] at he
    split_ifs at he
    · simp at he
    · simp only [List.mem_cons, Elem.reduce.injEq, reduceCtorEq, List.not_mem_nil, or_false] at he
      obtain ⟨-, rfl⟩ := he
      exact hpay
  | _ => exact hpay.elim

theorem reduce_phases (hw : Lawful w) (hr : r < w.n)
    (hop : (w.prog r)[i]? = some (.reduce sendbuf recvbuf count type f root comm))
    (hcode : reduceCode w.n count type f root comm = MPI_SUCCESS) :
    w.phases r (i + 1) = w.phases r i + 1 ∧
      elemAt w.elems (w.phases r i + 1) = .reduce root.toNat (bytes count type).toNat := by
  have helems : (Op.reduce sendbuf recvbuf count type f root comm).elems w.n =
      [.reduce root.toNat (bytes count type).toNat] := by
    simp only [Op.elems, Op.call, Option.map_some, Option.getD_some, Call.elems, hcode, ne_eq, not_true, if_false]
  exact ⟨by rw [phases_succ hop, helems]; rfl, elemAt_phases hw hr hop (k := 0) (by rw [helems]; rfl)⟩

theorem allreduce_phases (hw : Lawful w) (hr : r < w.n)
    (hop : (w.prog r)[i]? = some (.allreduce sendbuf recvbuf count type f comm))
    (hcode : reduceCode w.n count type f 0 comm = MPI_SUCCESS) :
    w.phases r (i + 1) = w.phases r i + 2 ∧
      elemAt w.elems (w.phases r i + 1) = .reduce 0 (bytes count type).toNat ∧
      elemAt w.elems (w.phases r i + 2) = .bcast 0 (bytes count type).toNat := by
  have helems : (Op.allreduce sendbuf recvbuf count type f comm).elems w.n =
      [.reduce 0 (bytes count type).toNat, .bcast 0 (bytes count type).toNat] := by
    simp only [Op.elems, Op.call, Option.map_some, Option.getD_some, Call.elems, hcode, ne_eq, not_true, if_false]
  exact ⟨by rw [phases_succ hop, helems]; rfl, elemAt_phases hw hr hop (k := 0) (by rw [helems]; rfl),
    elemAt_phases hw hr hop (k := 1) (by rw [helems]; rfl)⟩

/-- The call of another rank that is the same `MPI_Allreduce`. -/
theorem allreduce_call (hw : Lawful w) (hr : r < w.n) (hx : x < w.n)
    (hop : (w.prog r)[i]? = some (.allreduce sendbuf recvbuf count type f comm)) :
    ∃ (j : Nat) (sendbuf₀ recvbuf₀ : List UInt8),
      (w.prog x)[j]? = some (.allreduce sendbuf₀ recvbuf₀ count type f comm) ∧ w.colls x j = w.colls r i := by
  obtain ⟨j, op', hop', hc, hcolls⟩ := exists_call hw hr hx hop rfl
  cases op' with
  | allreduce sendbuf₀ recvbuf₀ count' type' op' comm' =>
    cases hc
    exact ⟨j, sendbuf₀, recvbuf₀, hop', hcolls⟩
  | _ => cases hc

theorem fold_contributions_length {n len : Nat} {c : List UInt8} {cs : List (List UInt8)}
    (hargs : n ≠ 1 → Arithmetic type ∧ 0 ≤ count ∧ (len : Int) = count * type_size type) (hc : c.length = len)
    (hcs : n = 1 → cs = []) : (fold type f count.toNat (c :: cs)).length = len := by
  by_cases hn : n = 1
  · rw [hcs hn]
    exact hc
  · obtain ⟨h1, h2, h3⟩ := hargs hn
    have h4 := @fold_length type f count.toNat h1 c cs (by rw [Int.toNat_of_nonneg h2, ← h3, hc])
    rw [Int.toNat_of_nonneg h2, ← h3] at h4
    exact_mod_cast h4

theorem filter_map_eq {α β γ : Type} {l : List α} {p : α → Bool} {f : α → γ} {t : α → Option β} {p' : β → Bool}
    {f' : β → γ} (h1 : ∀ a ∈ l, p a = true → ∃ b, t a = some b ∧ p' b = true ∧ f' b = f a)
    (h2 : ∀ a ∈ l, p a = false → ∀ b, t a = some b → p' b = false) :
    (l.filter p).map f = ((l.filterMap t).filter p').map f' := by
  induction l with
  | nil => rfl
  | cons a l ih =>
    have ih' := ih (fun b hb => h1 b (by simp [hb])) (fun b hb => h2 b (by simp [hb]))
    cases hp : p a with
    | true =>
      obtain ⟨b, hb, hpb, hfb⟩ := h1 a (by simp) hp
      simp [hp, hb, hpb, hfb, ih']
    | false =>
      cases ht : t a with
      | none => simp [hp, ht, ih']
      | some b => simp [hp, ht, h2 a (by simp) hp b ht, ih']

theorem exists_of_dataOf {got : List Got} {d : List UInt8} (h : d ∈ dataOf got i) :
    ∃ g ∈ got, g.call = i ∧ g.msg.frame.data = d := by
  obtain ⟨g, hg, rfl⟩ := List.mem_map.1 h
  obtain ⟨h1, h2⟩ := List.mem_filter.1 hg
  exact ⟨g, h1, by simpa using h2, rfl⟩

theorem dataOf_eq_before {Z : Nat → Prop} {c : Core} (hi : RankSim w Z r c) (hc : w.isColl r i = true) {q : Nat}
    (hq : w.phases r (i + 1) < q) : dataOf c.got i = before c.got i q := by
  unfold dataOf before
  refine congrArg _ (List.filter_congr fun g hg => ?_)
  by_cases hcall : g.call = i
  · subst hcall
    have := (hi.got g hg hc).2.1
    simp [show g.during < q by omega]
  · simp [hcall]

end

/-! ## The messages of a collective -/

section
variable {w : World} {s : Sys} (hw : Lawful w) (hi : SysSim w (fun _ => True) s.core s.sent)
  (hsub : ∀ x, (apps (s.held x)).Subperm (msgsTo x s.sent)) {r i : Nat}
include hw hi hsub

/-- A message a collective took is one that the same collective of another rank
sent in the same phase. -/
theorem taken_facts (hr : r < w.n) {g : Got} (hg : g ∈ (s.core r).got)
    (hc : w.isColl r g.call = true) :
    ∃ x j, x < w.n ∧ x ≠ r ∧ g.msg.origin = .coll x j g.during ∧ (⟨r, g.msg⟩ : Packet) ∈ s.sent ∧
      w.colls x j = w.colls r g.call ∧ SentOk w s.core ⟨r, g.msg⟩ x j g.during := by
  obtain ⟨h1, h2, x, j, q, ho⟩ := (hi.rank r hr).got g hg hc
  obtain rfl : q = g.during :=
    hi.exact r ⟨g.during, x, q⟩ (List.mem_filterMap.2 ⟨g, hg, by simp [hc, ho]⟩) trivial
  have hheld : g.msg ∈ s.held r := by
    simp only [Sys.held, List.mem_append]
    exact .inr (List.mem_map_of_mem hg)
  have hsent := mem_msgsTo.1 ((hsub r).subset (List.mem_filter.2 ⟨hheld, by simp [ho, Origin.app]⟩))
  have hso := hi.sent _ hsent x j _ ho
  obtain ⟨hx, hlink⟩ := mem_plan_send.1 (phase_of_mem hso.sent).2
  exact ⟨x, j, hx, hlink.ne, ho, hsent, same_call hw hx hr hso.low hso.high h1 h2, hso⟩

/-- The call that sent a message which call `i` of rank `r` took. -/
theorem taken_op (hr : r < w.n) {op : Op} {c : Call}
    (hop : (w.prog r)[i]? = some op) (hc : op.call = some c) {g : Got} (hg : g ∈ (s.core r).got) (hcall : g.call = i) :
    ∃ (x j : Nat) (op' : Op), x < w.n ∧ (w.prog x)[j]? = some op' ∧ op'.call = some c ∧ w.colls x j = w.colls r i ∧
      elemAt w.elems g.during ∈ c.elems w.n ∧ (elemAt w.elems g.during).Link w.n x r ∧
      SentOk w s.core ⟨r, g.msg⟩ x j g.during ∧
      op'.pay (elemAt w.elems g.during) (before (s.core x).got j g.during) g.msg.frame.data := by
  subst hcall
  have hcoll : w.isColl r g.call = true := isColl_iff.2 ⟨op, hop, by simp [hc]⟩
  obtain ⟨x, j, hx, -, -, -, hcolls, hso⟩ := taken_facts hw hi hsub hr hg hcoll
  obtain ⟨op', hop', hpay⟩ := hso.pay
  have hmem := elemAt_mem hw hx hop' hso.low hso.high
  obtain ⟨c', hc'⟩ : ∃ c', op'.call = some c' := by
    cases h : op'.call with
    | none => simp [Op.elems, h] at hmem
    | some c' => exact ⟨c', rfl⟩
  obtain rfl : c' = c := by
    have h1 := calls_colls hw hx hop' hc'
    rw [hcolls, calls_colls hw hr hop hc] at h1
    exact (Option.some.inj h1).symm
  exact ⟨x, j, op', hx, hop', hc', hcolls, by simpa [Op.elems, hc'] using hmem,
    (mem_plan_send.1 (phase_of_mem hso.sent).2).2, hso, hpay⟩

/-- What a call took in its first phase, a gathering one, are contributions. -/
theorem gathered (hr : r < w.n) {root len : Nat}
    (he : elemAt w.elems (w.phases r i + 1) = .reduce root len) (hlt : w.phases r i < w.phases r (i + 1)) :
    before (s.core r).got i (w.phases r i + 2) =
      (tookFrom (absOf w s.core) (w.phases r i + 1) r).map (w.contribution (w.colls r i)) := by
  have hc : w.isColl r i = true := by
    by_contra hc
    have := phases_of_not_coll (by simpa using hc : w.isColl r i = false)
    omega
  unfold before tookFrom
  rw [List.map_map]
  refine filter_map_eq (fun g hg hp => ?_) fun g hg hp t ht => ?_
  · simp only [Bool.decide_and, Bool.and_eq_true, decide_eq_true_eq] at hp
    obtain ⟨rfl, hd⟩ := hp
    obtain ⟨x, j, hx, hne, ho, -, hcolls, hso⟩ := taken_facts hw hi hsub hr hg hc
    have hlow := ((hi.rank r hr).got g hg hc).1
    have hd : g.during = w.phases r g.call + 1 := by omega
    refine ⟨⟨g.during, x, g.during⟩, by simp [hc, ho], by simp [hd], ?_⟩
    -- the sender's call is the same collective
    obtain ⟨op, hop, hpay⟩ := hso.pay
    have hmem := elemAt_mem hw hx hop hso.low hso.high
    rw [hd, he] at hpay hmem
    rw [← hcolls]
    exact (contribution_eq hop hmem hpay).symm
  · -- what is taken in this phase is taken by this call
    by_contra hq
    simp only [decide_eq_false_iff_not, not_not] at hq
    split at ht
    · rename_i hcg
      have hgot := (hi.rank r hr).got g hg hcg
      have hd : g.during = w.phases r i + 1 := by
        split at ht <;> cases ht
        exact hq
      have : g.call = i := call_of_phase hgot.1 hgot.2.1 (by omega) (by omega)
      simp [this, hd] at hp
    · cases ht

omit hw hsub in
/-- The root of a gathering phase that is over took one message from every other rank. -/
theorem root_order {q root len : Nat} (hr : root < w.n)
    (he : elemAt w.elems q = .reduce root len) (hd : doneActs w.plan (absOf w s.core) q root = w.plan.acts q root) :
    (root :: tookFrom (absOf w s.core) q root).Perm (List.range w.n) := by
  obtain ⟨hnd, hset⟩ := tookFrom_senders (plan_balanced (elems_rooted w)) hi.inv (by simpa [World.plan, plan] using hr)
    (fun t ht hq => by rw [hi.exact root t ht trivial, hq]) (by rw [World.plan] at hd; rw [hd])
  have hmem : ∀ x, x ∈ tookFrom (absOf w s.core) q root ↔ x < w.n ∧ x ≠ root := fun x => by
    rw [← List.mem_toFinset, hset, Finset.mem_filter, mem_plan_send, he]
    simp [plan, Elem.Link]
  have hcons : (root :: tookFrom (absOf w s.core) q root).Nodup :=
    List.nodup_cons.2 ⟨fun h => ((hmem root).1 h).2 rfl, hnd⟩
  refine (List.perm_ext_iff_of_nodup hcons List.nodup_range).2 fun x => ?_
  rw [List.mem_cons, hmem, List.mem_range]
  by_cases hx : x = root
  · simp [hx, hr]
  · simp [hx]

/-- What the root of a gathering phase folds: every rank's contribution, once. -/
theorem root_fold {root len : Nat} (hr : root < w.n)
    (he : elemAt w.elems (w.phases root i + 1) = .reduce root len) (hlt : w.phases root i < w.phases root (i + 1))
    (hd : doneActs w.plan (absOf w s.core) (w.phases root i + 1) root = w.plan.acts (w.phases root i + 1) root) :
    ∃ order : List Nat, order.Perm (List.range w.n) ∧
      w.contribution (w.colls root i) root :: before (s.core root).got i (w.phases root i + 2) =
        order.map (w.contribution (w.colls root i)) := by
  refine ⟨_, root_order hi hr he hd, ?_⟩
  rw [gathered hw hi hsub hr he hlt]
  rfl

/-! ## What returns -/

variable {a : Ret}

omit hw hsub in
/-- How a collective that returned `MPI_SUCCESS` ended. -/
theorem ret_result {op : Op} {c : Call} (h : Succeeded w s r i op a) (hc : op.call = some c) :
    c.code w.n = MPI_SUCCESS ∧ op.result r a.buf (dataOf (s.rank r).got i) := by
  obtain ⟨h1, h2, -⟩ := (hi.rank r h.rank).past i op a h.prog h.ret c hc
  have hcode : c.code w.n = MPI_SUCCESS := h1.symm.trans h.rc
  exact ⟨hcode, h2 hcode⟩

/-- The root of a reduction has folded every rank's contribution once. -/
theorem reduce_result {sendbuf recvbuf : List UInt8} {count type op root comm : Int}
    (h : Succeeded w s r i (.reduce sendbuf recvbuf count type op root comm) a) (hroot : (r : Int) = root) :
    ∃ order : List Nat, order.Perm (List.range w.n) ∧
      a.buf = fold type op count.toNat (order.map (w.contribution (w.colls r i))) ++
        recvbuf.drop (bytes count type).toNat := by
  obtain ⟨hcode, hres⟩ := ret_result hi h rfl
  obtain ⟨hsucc, helem⟩ := reduce_phases hw h.rank h.prog hcode
  rw [← hroot, Int.toNat_natCast] at helem
  have hret : i < (s.core r).rets.length := (List.getElem?_eq_some_iff.1 h.ret).1
  obtain ⟨order, hperm, hfold⟩ := root_fold hw hi hsub h.rank helem (by omega)
    ((hi.rank r h.rank).doneActs_past hret (by omega))
  refine ⟨order, hperm, ?_⟩
  rw [hres.1 hroot, ← hfold, contribution_reduce h.prog]
  rw [show dataOf (s.rank r).got i = before (s.core r).got i (w.phases r i + 2) from
    dataOf_eq_before (hi.rank r h.rank) (isColl_iff.2 ⟨_, h.prog, rfl⟩) (by omega)]

/-- A rank that has returned from a broadcast has the bytes of the root. -/
theorem bcast_result {buf : List UInt8} {count type root comm : Int}
    (h : Succeeded w s r i (.bcast buf count type root comm) a) :
    ∃ buf₀, (w.coll root.toNat)[w.colls r i]? = some (.bcast buf₀ count type root comm) ∧
      a.buf = buf₀.take (bytes count type).toNat ++ buf.drop (bytes count type).toNat := by
  obtain ⟨hcode, hres⟩ := ret_result hi h rfl
  obtain ⟨-, h0, -⟩ := bcastCode_success hcode
  by_cases hroot : (r : Int) = root
  · subst hroot
    exact ⟨buf, coll_colls h.prog rfl, by rw [List.take_append_drop]; exact hres.1 rfl⟩
  · obtain ⟨d, hd, hbuf⟩ := hres.2 hroot
    obtain ⟨g, hg, hcall, rfl⟩ := exists_of_dataOf (show d ∈ dataOf (s.rank r).got i by simp [hd])
    obtain ⟨x, j, op', hx, hop', hc', hcolls, he, hlink, -, hpay⟩ := taken_op hw hi hsub h.rank h.prog rfl hg hcall
    cases op' with
    | bcast buf₀ count' type' root' comm' =>
      cases hc'
      -- the message is from the root
      cases helem : elemAt w.elems g.during with
      | bcast root' len =>
        rw [helem] at hpay hlink he
        obtain ⟨rfl, rfl⟩ : root' = root.toNat ∧ len = (bytes count type).toNat := by
          simp only [Call.elems] at he
          split_ifs at he
          · simp at he
          · simp at he
          · simpa using he
        obtain ⟨rfl, -, hne⟩ := hlink
        have hr := h.rank
        have hfits : bytes count type ≤ buf₀.length := hw.fits _ hx _ (List.mem_of_getElem? hop') hcode (by omega)
        refine ⟨buf₀, by rw [← hcolls]; exact coll_colls hop' rfl, ?_⟩
        rw [hbuf, show g.msg.frame.data = buf₀.take (bytes count type).toNat from hpay, List.length_take,
          Nat.min_eq_left (by omega)]
      | _ => rw [helem] at hpay; exact hpay.elim
    | _ => cases hc'

section
variable {sendbuf recvbuf sendbuf₀ recvbuf₀ : List UInt8} {count type op comm : Int} {j : Nat}

/-- In an `MPI_Allreduce` rank 0 receives in the first phase only. -/
theorem allreduce_gathered
    (hop : (w.prog 0)[j]? = some (.allreduce sendbuf₀ recvbuf₀ count type op comm))
    (hcode : reduceCode w.n count type op 0 comm = MPI_SUCCESS) :
    dataOf (s.core 0).got j = before (s.core 0).got j (w.phases 0 j + 2) := by
  obtain ⟨hsucc, -, helem⟩ := allreduce_phases hw w.pos hop hcode
  unfold dataOf before
  refine congrArg _ (List.filter_congr fun g hg => ?_)
  by_cases hcall : g.call = j
  · have hgot := (hi.rank 0 w.pos).got g hg (by rw [hcall]; exact isColl_iff.2 ⟨_, hop, rfl⟩)
    obtain ⟨x, j', op', -, -, -, -, -, hlink, -⟩ := taken_op hw hi hsub w.pos hop rfl hg hcall
    rw [hcall] at hgot
    have : g.during ≠ w.phases 0 j + 2 := fun hd => by
      -- in the second phase rank 0 is the one that sends
      rw [hd, helem] at hlink
      exact hlink.2.2 rfl
    simp [hcall, show g.during < w.phases 0 j + 2 by omega]
  · simp [hcall]

/-- What rank 0 folds in an `MPI_Allreduce`: every rank's contribution, once. -/
theorem allreduce_value
    (hop : (w.prog 0)[j]? = some (.allreduce sendbuf₀ recvbuf₀ count type op comm))
    (hcode : reduceCode w.n count type op 0 comm = MPI_SUCCESS) (hpast : w.phases 0 j + 1 < (s.core 0).ticks) :
    (∃ order : List Nat, order.Perm (List.range w.n) ∧
      sendbuf₀.take (bytes count type).toNat :: dataOf (s.core 0).got j = order.map (w.contribution (w.colls 0 j))) ∧
    (fold type op count.toNat (sendbuf₀.take (bytes count type).toNat :: dataOf (s.core 0).got j)).length =
      (bytes count type).toNat := by
  obtain ⟨hsucc, helem, -⟩ := allreduce_phases hw w.pos hop hcode
  obtain ⟨order, hperm, hmap⟩ := root_fold hw hi hsub w.pos helem (by omega) (doneActs_of_lt hpast)
  rw [contribution_allreduce hop, ← allreduce_gathered hw hi hsub hop hcode] at hmap
  refine ⟨⟨order, hperm, hmap⟩, ?_⟩
  have hmem := List.mem_of_getElem? hop
  obtain ⟨-, -, hsend, hargs⟩ := reduce_args hcode (hw.call_benign w.pos hop rfl hcode) (hw.fits 0 w.pos _ hmem hcode).1
  refine fold_contributions_length hargs (by rw [List.length_take, Nat.min_eq_left hsend]) fun hn => ?_
  have hlen := congrArg List.length hmap
  rw [List.length_map, hperm.length_eq, List.length_range, hn, List.length_cons] at hlen
  exact List.length_eq_zero_iff.1 (by omega)

/-- A rank that has returned from an `MPI_Allreduce` has what rank 0 folded in the same call. -/
theorem allreduce_result (h : Succeeded w s r i (.allreduce sendbuf recvbuf count type op comm) a)
    (hop₀ : (w.prog 0)[j]? = some (.allreduce sendbuf₀ recvbuf₀ count type op comm))
    (hcolls : w.colls 0 j = w.colls r i) :
    w.phases 0 j + 1 < (s.core 0).ticks ∧
      a.buf = fold type op count.toNat (sendbuf₀.take (bytes count type).toNat :: dataOf (s.rank 0).got j) ++
        recvbuf.drop (bytes count type).toNat := by
  obtain ⟨hcode, hres⟩ := ret_result hi h rfl
  obtain ⟨hsucc, helem1, helem2⟩ := allreduce_phases hw w.pos hop₀ hcode
  have hcoll₀ : w.isColl 0 j = true := isColl_iff.2 ⟨_, hop₀, rfl⟩
  by_cases hr0 : r = 0
  · subst hr0
    obtain rfl : j = i := colls_inj hcoll₀ (isColl_iff.2 ⟨_, h.prog, rfl⟩) hcolls
    obtain ⟨rfl, rfl⟩ : sendbuf = sendbuf₀ ∧ recvbuf = recvbuf₀ := by
      rw [h.prog] at hop₀
      simpa using hop₀
    have hret : j < (s.core 0).rets.length := (List.getElem?_eq_some_iff.1 h.ret).1
    have hlow := (hi.rank 0 w.pos).low
    have := @phases_mono w 0 (j + 1) _ hret
    exact ⟨by omega, hres.1 rfl⟩
  · obtain ⟨d, hd, hbuf⟩ := hres.2 hr0
    obtain ⟨g, hg, hcall, rfl⟩ := exists_of_dataOf (show d ∈ dataOf (s.rank r).got i by simp [hd])
    obtain ⟨x, j', op', hx, hop', hc', hcolls', he, hlink, hso, hpay⟩ := taken_op hw hi hsub h.rank h.prog rfl hg hcall
    simp only [Call.elems, show reduceCode w.n count type op 0 comm = MPI_SUCCESS from hcode, ne_eq, not_true, if_false,
      List.mem_cons, List.not_mem_nil, or_false] at he
    rcases he with he | he
    · -- in the first phase only rank 0 receives
      rw [he] at hlink
      exact absurd hlink.2 hr0
    · rw [he] at hlink hpay
      obtain ⟨rfl, -, -⟩ := hlink
      obtain rfl : j' = j := colls_inj (isColl_iff.2 ⟨_, hop', by simp [hc']⟩) hcoll₀ (hcolls'.trans hcolls.symm)
      rw [hop₀] at hop'
      cases hop'
      have hlow := hso.low
      have hhigh := hso.high
      have hne : g.during ≠ w.phases 0 j' + 1 := fun hd => by
        rw [hd, helem1] at he
        cases he
      have hdur : g.during = w.phases 0 j' + 2 := by omega
      have hticks : g.during ≤ (s.core 0).ticks := (phase_of_mem hso.sent).1
      refine ⟨by omega, ?_⟩
      replace hpay : g.msg.frame.data = fold type op count.toNat (_ :: before (s.core 0).got j' g.during) := hpay
      rw [hdur, ← allreduce_gathered hw hi hsub hop₀ hcode] at hpay
      rw [hbuf, hpay, (allreduce_value hw hi hsub hop₀ hcode (by omega)).2]
      rfl

end

end

/-! ## Reductions -/

section
variable {w : World} {s : Sys}

/-- Two reductions of one integer at rank 0. -/
def sums : World :=
  duo [.reduce [1, 0, 0, 0] [0, 0, 0, 0] 1 MPI_INT MPI_SUM 0 MPI_COMM_WORLD,
      .reduce [10, 0, 0, 0] [0, 0, 0, 0] 1 MPI_INT MPI_SUM 0 MPI_COMM_WORLD]
    [.reduce [2, 0, 0, 0] [] 1 MPI_INT MPI_SUM 0 MPI_COMM_WORLD,
      .reduce [20, 0, 0, 0] [] 1 MPI_INT MPI_SUM 0 MPI_COMM_WORLD]

/-- All ranks that return `MPI_SUCCESS` from a broadcast have the bytes the
root's buffer held in the same call, and all that return it from an
`MPI_Allreduce` have the same bytes: what rank 0 computed from its own
contribution and the messages it took in this call, which are the
contributions of all ranks, each once. -/
theorem bcast_allreduce_agree (hw : Lawful w) (hrun : Run (step w) (fun s l _ => Regular w s l) start s) :
    (∀ r i buf count type root comm a, Succeeded w s r i (.bcast buf count type root comm) a →
      ∃ buf₀, (w.coll root.toNat)[w.colls r i]? = some (.bcast buf₀ count type root comm) ∧
        a.buf = buf₀.take (bytes count type).toNat ++ buf.drop (bytes count type).toNat) ∧
    (∀ r i sendbuf recvbuf count type op comm a, Succeeded w s r i (.allreduce sendbuf recvbuf count type op comm) a →
      ∃ j sendbuf₀ recvbuf₀ v, (w.prog 0)[j]? = some (.allreduce sendbuf₀ recvbuf₀ count type op comm) ∧
        w.colls 0 j = w.colls r i ∧
        v = fold type op count.toNat (sendbuf₀.take (bytes count type).toNat :: dataOf (s.rank 0).got j) ∧
        (∃ order : List Nat, order.Perm (List.range w.n) ∧
          v = fold type op count.toNat (order.map (w.contribution (w.colls r i)))) ∧
        v.length = (bytes count type).toNat ∧ a.buf = v ++ recvbuf.drop (bytes count type).toNat) ∧
    (∀ r i sendbuf recvbuf a r' i' sendbuf' recvbuf' a' count type op comm,
      Succeeded w s r i (.allreduce sendbuf recvbuf count type op comm) a →
      Succeeded w s r' i' (.allreduce sendbuf' recvbuf' count type op comm) a' → w.colls r i = w.colls r' i' →
      a.buf.take (bytes count type).toNat = a'.buf.take (bytes count type).toNat) := by
  have hi := run_exact hw (fun _ _ _ hl => hl) hrun
  have hsub := held_subperm hrun
  refine ⟨fun r i buf count type root comm a h => bcast_result hw hi hsub h, ?_, ?_⟩
  · intro r i sendbuf recvbuf count type op comm a h
    obtain ⟨j, sendbuf₀, recvbuf₀, hop₀, hcolls⟩ := allreduce_call hw h.rank w.pos h.prog
    obtain ⟨hpast, hbuf⟩ := allreduce_result hw hi hsub h hop₀ hcolls
    obtain ⟨⟨order, hperm, hmap⟩, hlen⟩ := allreduce_value hw hi hsub hop₀ (ret_result hi h rfl).1 hpast
    exact ⟨j, sendbuf₀, recvbuf₀, _, hop₀, hcolls, rfl, ⟨order, hperm, congrArg _ (hcolls ▸ hmap)⟩, hlen, hbuf⟩
  · intro r i sendbuf recvbuf a r' i' sendbuf' recvbuf' a' count type op comm h h' hcolls
    obtain ⟨j, sendbuf₀, recvbuf₀, hop₀, hcolls₀⟩ := allreduce_call hw h.rank w.pos h.prog
    obtain ⟨hpast, hbuf⟩ := allreduce_result hw hi hsub h hop₀ hcolls₀
    obtain ⟨-, hbuf'⟩ := allreduce_result hw hi hsub h' hop₀ (hcolls₀.trans hcolls)
    have hlen := (allreduce_value hw hi hsub hop₀ (ret_result hi h rfl).1 hpast).2
    rw [hbuf, hbuf']
    exact (List.take_left' hlen).trans (List.take_left' hlen).symm

/-- A broadcast from rank 1 and an `MPI_Allreduce`. -/
def shares : World :=
  duo [.bcast [0] 1 MPI_BYTE 1 MPI_COMM_WORLD, .allreduce [1, 0, 0, 0] [0, 0, 0, 0] 1 MPI_INT MPI_SUM MPI_COMM_WORLD]
    [.bcast [9] 1 MPI_BYTE 1 MPI_COMM_WORLD, .allreduce [2, 0, 0, 0] [0, 0, 0, 0] 1 MPI_INT MPI_SUM MPI_COMM_WORLD]

/-- Rank 1 broadcasts and is in the `MPI_Allreduce` before rank 0 reads anything. -/
theorem bcast_allreduce_agree_shares :
    ∃ s a b c, Run (step shares) (fun s l _ => Regular shares s l) start s ∧ (s.rank 0).rets = [a, b] ∧
      (s.rank 1).rets[1]? = some c ∧
      (∃ buf₀, (shares.coll (1 : Int).toNat)[shares.colls 0 0]? = some (.bcast buf₀ 1 MPI_BYTE 1 MPI_COMM_WORLD) ∧
        a.buf = buf₀.take (bytes 1 MPI_BYTE).toNat ++ [0].drop (bytes 1 MPI_BYTE).toNat) ∧
      b.buf.take (bytes 1 MPI_INT).toNat = c.buf.take (bytes 1 MPI_INT).toNat ∧ b.buf = [3, 0, 0, 0] := by
  have h : ((exec (step shares) (fun s l => decide (Regular shares s l)) start
      (duoInit ++ ([.rank 1 .call, .rank 1 .exec, .rank 1 .exec, .rank 1 .exec, .rank 1 .call, .rank 1 .exec,
        .rank 1 .exec, .rank 1 .exec, .rank 1 .exec, .deliver 0, .deliver 0, .rank 0 .call, .rank 0 .exec,
        .rank 0 .exec, .rank 0 .recv, .rank 0 .exec, .rank 0 .call, .rank 0 .exec, .rank 0 .exec, .rank 0 .recv,
        .rank 0 .exec, .rank 0 .exec, .rank 0 .exec, .deliver 0, .rank 1 .recv, .rank 1 .exec] : List Label))).map
      fun s => decide ((s.rank 0).rets = [⟨0, [9], none⟩, ⟨0, [3, 0, 0, 0], none⟩] ∧
        (s.rank 1).rets[1]? = some ⟨0, [3, 0, 0, 0], none⟩)) = some true := by
    decide +kernel
  obtain ⟨s, hrun, h0, h1⟩ := exec_reaches h fun _ _ _ hb => of_decide_eq_true hb
  obtain ⟨hb, -, ha⟩ := bcast_allreduce_agree (show Lawful shares by decide) hrun
  have hbcast := hb 0 0 [0] 1 MPI_BYTE 1 MPI_COMM_WORLD ⟨0, [9], none⟩ ⟨by decide, rfl, by rw [h0]; rfl, rfl⟩
  have hagree := ha 0 1 [1, 0, 0, 0] [0, 0, 0, 0] ⟨0, [3, 0, 0, 0], none⟩ 1 1 [2, 0, 0, 0] [0, 0, 0, 0]
    ⟨0, [3, 0, 0, 0], none⟩ 1 MPI_INT MPI_SUM MPI_COMM_WORLD ⟨by decide, rfl, by rw [h0]; rfl, rfl⟩
    ⟨by decide, rfl, h1, rfl⟩ (by decide)
  exact ⟨s, _, _, _, hrun, h0, h1, hbcast, hagree, rfl⟩

end

end LibNeoos.Mpi
