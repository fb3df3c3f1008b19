import LibNeoos.Mpi.Collectives
import LibNeoos.Mpi.Delivery
/-!
# Collectives and user-level messages

`MPI_TAG_UB` is meant to keep the tags of collectives out of reach, but
`MPI_Send` refuses no tag above it (`send_not_refused`), and a program that
uses one can have a frame of its own taken by a collective
(`forged_frame_is_reduced`). Programs that stay below the bound cannot: every
message a collective takes was sent by the same collective of another rank, and
what collectives return is a function of the collective calls alone
(`World.outcome`), so it is the same for programs that differ in their
user-level sends and receives.
-/

namespace LibNeoos.Mpi

open LibNeoos.Lib

/-! ## The bound on tags -/

/-- Every `int` above the bound has the bit set that lets it pass. -/
theorem send_not_refused {e : Env} {buf : List UInt8} {count type dest tag comm : Int} (h : MPI_TAG_UB < tag)
    (h' : tag ≤ INT_MAX) : MPI_Send e buf count type dest tag comm ≠ .ret MPI_ERR_TAG := by
  have hbit : ¬ (tag < 0 ∨ (tag > MPI_TAG_UB ∧ tag.toNat &&& 0x40000000 = 0)) := by
    rintro (h1 | ⟨h1, h2⟩)
    · simp at h
      omega
    · exact bit30_of_gt h1 h' h2
  simp only [MPI_Send, Copies.MPI_Send, Io.forget_ite, Io.forget_ret, Copies.forget_send_raw]
  rw [if_neg hbit]
  split_ifs <;> first | (simp; done) | skip
  unfold send_raw
  split <;> simp

/-! ## What a collective leaves in the buffer -/

/-- What the `k`-th collective of rank `r` leaves in its buffer, if the
contributions of a reduction are folded in the given order. -/
def World.outcome (w : World) (r k : Nat) (order : List Nat) : List UInt8 :=
  match (w.coll r)[k]? with
  | some (.bcast buf count type root comm) =>
    if bcastCode w.n count type root comm = MPI_SUCCESS then
      match (w.coll root.toNat)[k]? with
      | some (.bcast buf₀ _ _ _ _) => buf₀.take (bytes count type).toNat ++ buf.drop (bytes count type).toNat
      | _ => buf
    else buf
  | some (.reduce _ recvbuf count type op root comm) =>
    if reduceCode w.n count type op root comm = MPI_SUCCESS ∧ (r : Int) = root then
      fold type op count.toNat (order.map (w.contribution k)) ++ recvbuf.drop (bytes count type).toNat
    else recvbuf
  | some (.allreduce _ recvbuf count type op comm) =>
    if reduceCode w.n count type op 0 comm = MPI_SUCCESS then
      fold type op count.toNat (order.map (w.contribution k)) ++ recvbuf.drop (bytes count type).toNat
    else recvbuf
  | _ => []

/-- A reduction of floating-point numbers, where the order matters. -/
def Op.isDouble : Op → Bool
  | .reduce _ _ _ type _ _ _ => type = MPI_DOUBLE
  | .allreduce _ _ _ type _ _ => type = MPI_DOUBLE
  | _ => false

section
variable {w w' : World} {s : Sys} {r i : Nat} {op : Op} {c : Call} {a : Ret}

/-- Every collective that returns returns its code, and leaves its outcome. -/
theorem coll_outcome (hw : Lawful w) (hi : SysSim w (fun _ => True) s.core s.sent)
    (hsub : ∀ x, (apps (s.held x)).Subperm (msgsTo x s.sent)) (hr : r < w.n) (hop : (w.prog r)[i]? = some op)
    (hc : op.call = some c) (ha : (s.rank r).rets[i]? = some a) :
    a.rc = c.code w.n ∧ ∃ order : List Nat, order.Perm (List.range w.n) ∧ a.buf = w.outcome r (w.colls r i) order := by
  obtain ⟨hrc, hres, hout⟩ := (hi.rank r hr).past i op a hop ha c hc
  refine ⟨hrc, ?_⟩
  have hk := coll_colls hop (by simp [hc])
  by_cases hcode : c.code w.n = MPI_SUCCESS
  · have h : Succeeded w s r i op a := ⟨hr, hop, ha, hrc.trans hcode⟩
    cases op with
    | send => cases hc
    | recv => cases hc
    | barrier comm => exact ⟨_, .refl _, by simpa [World.outcome, hk, Op.result] using hres hcode⟩
    | bcast buf count type root comm =>
      cases hc
      obtain ⟨buf₀, hk₀, hbuf⟩ := bcast_result hw hi hsub h
      exact ⟨_, .refl _, by simp only [World.outcome, hk, hk₀, if_pos (show bcastCode _ _ _ _ _ = _ from hcode), hbuf]⟩
    | reduce sendbuf recvbuf count type op root comm =>
      cases hc
      replace hcode : reduceCode w.n count type op root comm = MPI_SUCCESS := hcode
      by_cases hroot : (r : Int) = root
      · obtain ⟨order, hperm, hbuf⟩ := reduce_result hw hi hsub h hroot
        exact ⟨order, hperm, by simp only [World.outcome, hk, if_pos (And.intro hcode hroot), hbuf]⟩
      · refine ⟨_, .refl _, ?_⟩
        simp only [World.outcome, hk, hroot, and_false, if_false]
        exact (hres hcode).2 hroot
    | allreduce sendbuf recvbuf count type op comm =>
      cases hc
      replace hcode : reduceCode w.n count type op 0 comm = MPI_SUCCESS := hcode
      obtain ⟨j, sendbuf₀, recvbuf₀, hop₀, hcolls⟩ := allreduce_call hw hr w.pos hop
      obtain ⟨hpast, hbuf⟩ := allreduce_result hw hi hsub h hop₀ hcolls
      obtain ⟨⟨order, hperm, hmap⟩, -⟩ := allreduce_value hw hi hsub hop₀ hcode hpast
      refine ⟨order, hperm, ?_⟩
      simp only [World.outcome, hk, if_pos hcode]
      rw [hbuf, ← hcolls, ← hmap]
      rfl
  · refine ⟨_, .refl _, ?_⟩
    rw [hout hcode]
    cases op with
    | send => cases hc
    | recv => cases hc
    | barrier comm => simp [World.outcome, hk, Op.out]
    | bcast buf count type root comm =>
      cases hc
      simp only [World.outcome, hk, if_neg (show ¬ bcastCode _ _ _ _ _ = _ from hcode), Op.out]
    | reduce sendbuf recvbuf count type op root comm =>
      cases hc
      simp only [World.outcome, hk, show ¬ reduceCode _ _ _ _ _ _ = _ from hcode, false_and, if_false, Op.out]
    | allreduce sendbuf recvbuf count type op comm =>
      cases hc
      simp only [World.outcome, hk, if_neg (show ¬ reduceCode _ _ _ _ _ _ = _ from hcode), Op.out]

/-- Folding in another order changes nothing, for one rank or integers. -/
theorem fold_order {type f : Int} {count k : Nat} {order order' : List Nat} {root comm n : Int}
    (hcode : reduceCode w.n n type f root comm = MPI_SUCCESS) (hb : w.n = 1 ∨ type = MPI_INT ∨ type = MPI_LONG)
    (h : order.Perm (List.range w.n)) (h' : order'.Perm (List.range w.n)) :
    fold type f count (order.map (w.contribution k)) = fold type f count (order'.map (w.contribution k)) := by
  rcases hb with hn | ht
  · rw [hn, List.range_one] at h h'
    rw [List.perm_singleton.1 h, List.perm_singleton.1 h']
  · obtain ⟨-, -, -, h1, h2, -⟩ := reduceCode_success hcode
    exact fold_perm ht h1 h2 ((h.trans h'.symm).map _)

/-- The outcome depends on the order only for floating-point numbers. -/
theorem outcome_order (hw : Lawful w) (hr : r < w.n) (hop : (w.prog r)[i]? = some op) (hc : op.call = some c)
    (hd : op.isDouble = false) {order order' : List Nat} (h : order.Perm (List.range w.n))
    (h' : order'.Perm (List.range w.n)) : w.outcome r (w.colls r i) order = w.outcome r (w.colls r i) order' := by
  have hk := coll_colls hop (by simp [hc])
  have hben := hw.call_benign hr hop hc
  have hint : ∀ {count type : Int}, (w.n = 1 ∧ 0 ≤ bytes count type) ∨ Summable count type → type ≠ MPI_DOUBLE →
      w.n = 1 ∨ type = MPI_INT ∨ type = MPI_LONG := by
    rintro count type (h | ⟨h | h | h, -⟩) hne
    · exact .inl h.1
    · exact .inr (.inl h)
    · exact .inr (.inr h)
    · exact absurd h hne
  unfold World.outcome
  rw [hk]
  cases op with
  | reduce sendbuf recvbuf count type op root comm =>
    cases hc
    dsimp only
    split
    · rename_i hcode
      rw [fold_order hcode.1 (hint (hben hcode.1) (by simpa [Op.isDouble] using hd)) h h']
    · rfl
  | allreduce sendbuf recvbuf count type op comm =>
    cases hc
    dsimp only
    split
    · rename_i hcode
      rw [fold_order hcode (hint (hben hcode) (by simpa [Op.isDouble] using hd)) h h']
    · rfl
  | _ => rfl

/-- The outcome depends on the collective calls only. -/
theorem outcome_congr (hn : w'.n = w.n) (hcoll : ∀ x < w.n, w'.coll x = w.coll x) (hr : r < w.n) {k : Nat}
    {order : List Nat} (h : order.Perm (List.range w.n)) : w'.outcome r k order = w.outcome r k order := by
  have hcontr : order.map (w'.contribution k) = order.map (w.contribution k) := by
    refine List.map_congr_left fun x hx => ?_
    have hx : x < w.n := by simpa using h.subset hx
    rw [World.contribution, World.contribution, hcoll x hx]
  unfold World.outcome
  rw [hcoll r hr, hn, hcontr]
  split
  · rename_i buf count type root comm _
    split
    · rename_i hcode
      obtain ⟨-, h1, h2, -⟩ := bcastCode_success hcode
      rw [hcoll root.toNat (by omega)]
    · rfl
  all_goals rfl

end

/-! ## Isolation -/

section
variable {w : World} {s : Sys}

/-- `MPI_Send` keeps to its bound exactly for the tags that respect it anyway.
In a run of programs whose sends all do: every message a collective takes was
sent by the same collective of another rank; and a run of programs with the
same collective calls, whatever they send and receive besides, has the same
results, but for the order in which floating-point numbers are folded. -/
theorem collectives_ignore_user_sends (hw : Lawful w) (hrun : Run (step w) (fun s l _ => Regular w s l) start s) :
    (∀ e buf count type dest tag comm, tag ≤ INT_MAX →
      ((MPI_TAG_UB < tag → MPI_Send e buf count type dest tag comm = .ret MPI_ERR_TAG) ↔ tag ≤ MPI_TAG_UB)) ∧
    (∀ r g, r < w.n → g ∈ (s.rank r).got → w.isColl r g.call = true →
      ∃ x j, x < w.n ∧ x ≠ r ∧ w.isColl x j = true ∧ w.colls x j = w.colls r g.call ∧
        g.msg.origin = .coll x j g.during ∧ ⟨r, g.msg⟩ ∈ s.sent) ∧
    (∀ w' s' r i i' op op' a a', Lawful w' → Run (step w') (fun s l _ => Regular w' s l) start s' → w'.n = w.n →
      (∀ x < w.n, w'.coll x = w.coll x) → r < w.n →
      (w.prog r)[i]? = some op → op.call.isSome = true → (w'.prog r)[i']? = some op' → op'.call.isSome = true →
      w'.colls r i' = w.colls r i → (s.rank r).rets[i]? = some a → (s'.rank r).rets[i']? = some a' →
      a'.rc = a.rc ∧ (op.isDouble = false → a'.buf = a.buf) ∧
        ∃ order order' : List Nat, order.Perm (List.range w.n) ∧ order'.Perm (List.range w.n) ∧
          a.buf = w.outcome r (w.colls r i) order ∧ a'.buf = w.outcome r (w.colls r i) order') := by
  have hi := run_exact hw (fun _ _ _ hl => hl) hrun
  have hsub := held_subperm hrun
  refine ⟨fun e buf count type dest tag comm htag => ⟨fun h => ?_, fun h h' => absurd h (not_le.2 h')⟩,
    fun r g hr hg hc => ?_, fun w' s' r i i' op op' a a' hw' hrun' hn hcoll hr hop hc hop' hc' hcolls ha ha' => ?_⟩
  · by_contra hgt
    exact send_not_refused (not_le.1 hgt) htag (h (not_le.1 hgt))
  · obtain ⟨x, j, hx, hne, ho, hsent, hcolls, hso⟩ := taken_facts hw hi hsub hr hg hc
    refine ⟨x, j, hx, hne, ?_, hcolls, ho, hsent⟩
    by_contra hno
    have := phases_of_not_coll (by simpa using hno : w.isColl x j = false)
    have := hso.low
    have := hso.high
    omega
  · -- the two calls are the same
    obtain rfl : op' = op := by
      have h1 := coll_colls hop' hc'
      rw [hcoll r hr, hcolls, coll_colls hop hc] at h1
      exact (Option.some.inj h1).symm
    obtain ⟨c, hc⟩ := Option.isSome_iff_exists.1 hc
    obtain ⟨hrc, order, hperm, hbuf⟩ := coll_outcome hw hi hsub hr hop hc ha
    obtain ⟨hrc', order', hperm', hbuf'⟩ := coll_outcome hw' (run_exact hw' (fun _ _ _ hl => hl) hrun')
      (held_subperm hrun') (hn ▸ hr) hop' hc ha'
    rw [hn] at hrc' hperm'
    rw [hcolls, outcome_congr hn hcoll hr hperm'] at hbuf'
    refine ⟨hrc'.trans hrc.symm, fun hd => ?_, order, order', hperm, hperm', hbuf, hbuf'⟩
    rw [hbuf, hbuf', outcome_order hw hr hop hc hd hperm' hperm]

end

/-- Rank 1 makes the given calls before both reduce an integer at rank 0. -/
def total (ops : List Op) : World :=
  duo [.reduce [1, 0, 0, 0] [0, 0, 0, 0] 1 MPI_INT MPI_SUM 0 MPI_COMM_WORLD]
    (ops ++ [.reduce [2, 0, 0, 0] [] 1 MPI_INT MPI_SUM 0 MPI_COMM_WORLD])

/-- Rank 1 sends an integer to rank 0. -/
def totalSend (tag : Int) : World := total [.send [100, 0, 0, 0] 1 MPI_INT 0 tag MPI_COMM_WORLD]

/-- With a tag of its own the integer rank 1 sends does not matter. -/
theorem collectives_ignore_user_sends_total :
    ∃ s s' a a', Run (step (totalSend 5)) (fun s l _ => Regular (totalSend 5) s l) start s ∧
      Run (step (total [])) (fun s l _ => Regular (total []) s l) start s' ∧
      (s.rank 0).rets[0]? = some a ∧ (s'.rank 0).rets[0]? = some a' ∧ a'.rc = a.rc ∧ a'.buf = a.buf := by
  have h : ((exec (step (totalSend 5)) (fun s l => decide (Regular (totalSend 5) s l)) start
      (duoInit ++ ([.rank 1 .call, .rank 1 .exec, .rank 1 .exec, .rank 1 .call, .rank 1 .exec, .rank 1 .exec,
        .deliver 0, .deliver 0, .rank 0 .call, .rank 0 .exec, .rank 0 .exec, .rank 0 .recv, .rank 0 .recv,
        .rank 0 .exec] :
          List Label))).map fun s => decide ((s.rank 0).rets[0]? = some ⟨0, [3, 0, 0, 0], none⟩)) = some true := by
    decide +kernel
  have h' : ((exec (step (total [])) (fun s l => decide (Regular (total []) s l)) start
      (duoInit ++ ([.rank 1 .call, .rank 1 .exec, .rank 1 .exec, .deliver 0, .rank 0 .call, .rank 0 .exec,
        .rank 0 .exec, .rank 0 .recv, .rank 0 .exec] : List Label))).map fun s =>
      decide ((s.rank 0).rets[0]? = some ⟨0, [3, 0, 0, 0], none⟩)) = some true := by
    decide +kernel
  obtain ⟨s, hrun, ha⟩ := exec_reaches h fun _ _ _ hb => of_decide_eq_true hb
  obtain ⟨s', hrun', ha'⟩ := exec_reaches h' fun _ _ _ hb => of_decide_eq_true hb
  obtain ⟨hrc, hbuf, -⟩ := (collectives_ignore_user_sends (show Lawful (totalSend 5) by decide) hrun).2.2 (total []) s'
    0 0 0 _ _ _ _ (by decide) hrun' rfl (by decide) (by decide) rfl rfl rfl rfl rfl ha ha'
  exact ⟨s, s', _, _, hrun, hrun', ha, ha', hrc, hbuf rfl⟩

/-- With the tag of the reduction the integer is not refused, and is added in
place of rank 1's contribution: the sum is 101. -/
theorem forged_frame_is_reduced :
    ∃ s, Run (step (totalSend 0x44000001)) (fun s l _ => Delivers s l) start s ∧ MPI_TAG_UB < 0x44000001 ∧
      (s.rank 1).rets = [⟨MPI_SUCCESS, [100, 0, 0, 0], none⟩] ∧
      (s.rank 0).rets = [⟨MPI_SUCCESS, [101, 0, 0, 0], none⟩] ∧ (s.rank 0).taken.map (·.origin) = [.user 1 0] := by
  have h : ((exec (step (totalSend 0x44000001)) (fun s l => patient s l && inOrder s l && noOvertake s l && roomy s l)
      start (duoInit ++ ([.rank 1 .call, .rank 1 .exec, .rank 1 .exec, .deliver 0, .rank 0 .call, .rank 0 .exec,
        .rank 0 .exec, .rank 0 .recv, .rank 0 .exec] : List Label))).map fun s =>
      decide (MPI_TAG_UB < 0x44000001 ∧ (s.rank 1).rets = [⟨MPI_SUCCESS, [100, 0, 0, 0], none⟩] ∧
        (s.rank 0).rets = [⟨MPI_SUCCESS, [101, 0, 0, 0], none⟩] ∧
        (s.rank 0).taken.map (·.origin) = [.user 1 0])) = some true := by
    decide +kernel
  exact exec_reaches h fun s l s' hb => by simpa [Delivers, and_assoc] using hb

end LibNeoos.Mpi
