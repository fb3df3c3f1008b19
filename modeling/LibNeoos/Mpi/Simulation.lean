import LibNeoos.Mpi.Calls
import LibNeoos.Mpi.Plan
import LibNeoos.Mpi.Sends
/-!
# The calls of one rank follow the plan

All ranks make the same collective calls (`Lawful`), so that their phases are
those of one `plan`. `RankSim` ties what a rank has done to its place in the
plan: between calls it is at the end of a phase, and inside a collective the
rest of the program makes the acts that are left. Every step of a rank is then
a step of the plan or none at all (`Effect`, `move_effect`), and keeps
`RankSim` (`move_rankSim`).
-/

namespace LibNeoos.Mpi

open LibNeoos.Lib LibNeoos.Lib.Phased Prog

/-! ## The phases of a program -/

/-- The phases a call goes through. -/
def Op.elems (n : Nat) (op : Op) : List Elem := (op.call.map (Call.elems n)).getD []

/-- The tag of a send is one the application may use. -/
def Op.tagOk : Op → Prop
  | .send _ _ _ _ tag _ => tag ≤ MPI_TAG_UB
  | _ => True

instance : (op : Op) → Decidable op.tagOk
  | .send .. => inferInstanceAs (Decidable (_ ≤ _))
  | .recv .. => inferInstanceAs (Decidable True)
  | .barrier .. => inferInstanceAs (Decidable True)
  | .bcast .. => inferInstanceAs (Decidable True)
  | .reduce .. => inferInstanceAs (Decidable True)
  | .allreduce .. => inferInstanceAs (Decidable True)

/-- The collectives of rank 0. -/
def World.calls (w : World) : List Call := (w.prog 0).filterMap Op.call

/-- The phases of all collectives. -/
def World.elems (w : World) : List Elem := w.calls.flatMap (Call.elems w.n)

/-- The number of phases in the first `i` calls of a rank. -/
def World.phases (w : World) (r i : Nat) : Nat := (((w.prog r).take i).flatMap (Op.elems w.n)).length

def World.plan (w : World) : Plan Nat Int := Mpi.plan w.n w.elems

/-- All ranks make the same collective calls with the same arguments apart from
buffers, carried out or refused by all alike, and mixed with sends under tags
of the application and receives of any kind. -/
structure Lawful (w : World) : Prop where
  same : ∀ r < w.n, (w.prog r).filterMap Op.call = w.calls
  benign : ∀ c ∈ w.calls, c.benign w.n
  fits : ∀ r < w.n, ∀ op ∈ w.prog r, op.Fits w.n r
  tags : ∀ r < w.n, ∀ op ∈ w.prog r, op.tagOk

instance (w : World) : Decidable (Lawful w) :=
  decidable_of_iff ((∀ r < w.n, (w.prog r).filterMap Op.call = w.calls) ∧ (∀ c ∈ w.calls, c.benign w.n) ∧
      (∀ r < w.n, ∀ op ∈ w.prog r, op.Fits w.n r) ∧ ∀ r < w.n, ∀ op ∈ w.prog r, op.tagOk)
    ⟨fun ⟨h1, h2, h3, h4⟩ => ⟨h1, h2, h3, h4⟩, fun h => ⟨h.same, h.benign, h.fits, h.tags⟩⟩

section
variable {w : World} {r i : Nat} {op : Op}

theorem flatMap_elems (n : Nat) (l : List Op) :
    l.flatMap (Op.elems n) = (l.filterMap Op.call).flatMap (Call.elems n) := by
  induction l with
  | nil => rfl
  | cons op l ih =>
    cases hc : op.call with
    | none => simp [Op.elems, hc, ih]
    | some c => simp [Op.elems, hc, ih]

theorem Lawful.elems_eq (hw : Lawful w) (hr : r < w.n) : w.elems = (w.prog r).flatMap (Op.elems w.n) := by
  rw [flatMap_elems, hw.same r hr, World.elems]

theorem Lawful.call_benign (hw : Lawful w) (hr : r < w.n) {c : Call} (h : (w.prog r)[i]? = some op)
    (hc : op.call = some c) : c.benign w.n :=
  hw.benign c (hw.same r hr ▸ List.mem_filterMap.2 ⟨op, List.mem_of_getElem? h, hc⟩)

theorem phases_succ (h : (w.prog r)[i]? = some op) : w.phases r (i + 1) = w.phases r i + (op.elems w.n).length := by
  simp [World.phases, List.take_add_one, h]

theorem phases_mono {i j : Nat} (h : i ≤ j) : w.phases r i ≤ w.phases r j := by
  obtain ⟨k, rfl⟩ := Nat.exists_eq_add_of_le h
  simp [World.phases, List.take_add]

/-- An element of the list of all phases, by its call and its place in it. -/
theorem elemAt_flatMap {α : Type} {f : α → List Elem} {l : List α} {i k : Nat} {a : α} {e : Elem} (h : l[i]? = some a)
    (hk : (f a)[k]? = some e) : elemAt (l.flatMap f) (((l.take i).flatMap f).length + k + 1) = e := by
  obtain ⟨hi, he⟩ := List.getElem?_eq_some_iff.1 h
  have hsplit : l.flatMap f = (l.take i).flatMap f ++ (f a ++ (l.drop (i + 1)).flatMap f) := by
    conv_lhs => rw [← List.take_append_drop i l, List.drop_eq_getElem_cons hi, he]
    simp
  have hlt := (List.getElem?_eq_some_iff.1 hk).1
  show (l.flatMap f)[((l.take i).flatMap f).length + k]?.getD .void = e
  rw [hsplit, List.getElem?_append_right (by omega), Nat.add_sub_cancel_left, List.getElem?_append_left hlt, hk]
  rfl

/-- The phases of a call, in the order of the whole program. -/
theorem elemAt_phases (hw : Lawful w) (hr : r < w.n) (h : (w.prog r)[i]? = some op) {k : Nat} {e : Elem}
    (hk : (op.elems w.n)[k]? = some e) : elemAt w.elems (w.phases r i + k + 1) = e := by
  rw [hw.elems_eq hr]
  exact elemAt_flatMap h hk

/-- A phase between the first and the last of a call is one of the call's. -/
theorem elemAt_mem (hw : Lawful w) (hr : r < w.n) (h : (w.prog r)[i]? = some op) {q : Nat} (h1 : w.phases r i < q)
    (h2 : q ≤ w.phases r (i + 1)) : elemAt w.elems q ∈ op.elems w.n := by
  have hlen := phases_succ h
  obtain ⟨e, he⟩ : ∃ e, (op.elems w.n)[q - w.phases r i - 1]? = some e := ⟨_, List.getElem?_eq_getElem (by omega)⟩
  have helem := elemAt_phases hw hr h he
  rw [show w.phases r i + (q - w.phases r i - 1) + 1 = q by omega] at helem
  rw [helem]
  exact List.mem_of_getElem? he

/-- A phase belongs to one call of a rank. -/
theorem call_of_phase {i j q : Nat} (h1 : w.phases r i < q) (h2 : q ≤ w.phases r (i + 1)) (h3 : w.phases r j < q)
    (h4 : q ≤ w.phases r (j + 1)) : i = j := by
  rcases Nat.lt_trichotomy i j with h | h | h
  · have := phases_mono (w := w) (r := r) (show i + 1 ≤ j by omega)
    omega
  · exact h
  · have := phases_mono (w := w) (r := r) (show j + 1 ≤ i by omega)
    omega

theorem Call.elems_rooted {n : Nat} (hn : 0 < n) (c : Call) : ∀ e ∈ c.elems n, e.Rooted n := by
  intro e he
  cases c with
  | barrier comm =>
    simp only [Call.elems] at he
    split at he <;> simp at he
    subst he
    trivial
  | bcast count type root comm =>
    simp only [Call.elems] at he
    split_ifs at he with h1 h2 <;> simp at he <;> subst he
    · trivial
    · show root.toNat < n
      omega
  | reduce count type op root comm =>
    simp only [Call.elems] at he
    split_ifs at he with h1 <;> simp at he
    subst he
    have := reduceCode_success (not_not.1 h1)
    show root.toNat < n
    omega
  | allreduce count type op comm =>
    simp only [Call.elems] at he
    split_ifs at he with h1 <;> simp at he
    rcases he with rfl | rfl <;> exact hn

theorem elems_rooted (w : World) : ∀ e ∈ w.elems, e.Rooted w.n := by
  intro e he
  obtain ⟨c, -, he⟩ := List.mem_flatMap.1 he
  exact c.elems_rooted w.pos e he

end

/-! ## Where a rank is -/

/-- The collective messages taken in collectives, as the plan sees them. -/
def tookOf (w : World) (r : Nat) (got : List Got) : List (Take Nat) :=
  got.filterMap fun g =>
    if w.isColl r g.call then
      match g.msg.origin with
      | .coll x _ q => some ⟨g.during, x, q⟩
      | _ => none
    else none

/-- What the messages hold that call `i` has taken before phase `q`. -/
def before (got : List Got) (i q : Nat) : List (List UInt8) :=
  (got.filter fun g => g.call = i ∧ g.during < q).map (·.msg.frame.data)

/-- What the messages hold that call `i` has taken. -/
def dataOf (got : List Got) (i : Nat) : List (List UInt8) := (got.filter (·.call = i)).map (·.msg.frame.data)

/-- The rest of the program of a collective makes the acts that are left. -/
structure Tracks (w : World) (r : Nat) (c : Core) (op : Op) (p : Prog Ret) (σ : Pos) : Prop where
  sat : p.Sat w.n r op.pay (·.rc ≠ MPI_SUCCESS) (op.Done w.n r) σ
  elem : σ.elem = elemAt w.elems c.ticks
  phase : σ.q = c.ticks
  acts : σ.acts = (w.plan.acts c.ticks r).drop c.done
  early : c.ticks = w.phases r c.rets.length → σ.acts = []
  rest : σ.rest = (op.elems w.n).drop (c.ticks - w.phases r c.rets.length)
  old : σ.old = before c.got c.rets.length c.ticks
  all : σ.old ++ σ.cur = dataOf c.got c.rets.length

/-- A collective is about to return an error it got from a message of a wrong
size, in a phase whose messages are not known to be its own. -/
def Doomed (w : World) (Z : Nat → Prop) (r : Nat) (c : Core) : Prop :=
  ¬ Z c.ticks ∧ w.phases r c.rets.length < c.ticks ∧ w.isColl r c.rets.length = true ∧
    ∃ a, c.prog? = some (.ret a) ∧ a.rc ≠ MPI_SUCCESS

/-- The program never touches `coll_seq`. -/
def Prog.Quiet {α : Type} : Prog α → Prop
  | .ret _ => True
  | .fault => True
  | .coll_seq _ => False
  | .sendto _ _ k => ∀ j, (k j).Quiet
  | .recv_match _ _ k => ∀ x, (k x).Quiet

/-- What a rank has done agrees with the plan. `Z` are the phases whose
receives are known to take messages of their own phase. -/
structure RankSim (w : World) (Z : Nat → Prop) (r : Nat) (c : Core) : Prop where
  seq : c.coll_seq = c.ticks % 2 ^ 32
  done : c.done ≤ (w.plan.acts c.ticks r).length
  low : w.phases r c.rets.length ≤ c.ticks
  high : c.ticks ≤ w.phases r (c.rets.length + 1)
  rest : (∀ p, c.prog? = some p → w.isColl r c.rets.length = false) →
    c.ticks = w.phases r c.rets.length ∧ c.done = (w.plan.acts c.ticks r).length
  user : ∀ p, c.prog? = some p → w.isColl r c.rets.length = false → p.Quiet
  coll : ∀ p op, c.prog? = some p → (w.prog r)[c.rets.length]? = some op → op.call.isSome = true →
    Doomed w Z r c ∨ ∃ σ, Tracks w r c op p σ
  during : ∀ g ∈ c.got, g.during ≤ c.ticks
  call : ∀ g ∈ c.got, g.call < c.rets.length ∨ (g.call = c.rets.length ∧ c.prog?.isSome = true)
  got : ∀ g ∈ c.got, w.isColl r g.call = true → w.phases r g.call < g.during ∧ g.during ≤ w.phases r (g.call + 1) ∧
    ∃ x i q, g.msg.origin = .coll x i q
  past : ∀ i (op : Op) a, (w.prog r)[i]? = some op → c.rets[i]? = some a → op.post w.n r a (dataOf c.got i)

section
variable {w : World} {r : Nat} {c : Core}

/-- Messages taken in a later phase do not count. -/
theorem before_append (got : List Got) {i q : Nat} {g : Got} (h : q ≤ g.during) :
    before (got ++ [g]) i q = before got i q := by
  simp [before, List.filter_append, show ¬ g.during < q by omega]

theorem before_all {got : List Got} {i q : Nat} (h : ∀ g ∈ got, g.during < q) : before got i q = dataOf got i := by
  unfold before dataOf
  refine congrArg _ (List.filter_congr fun g hg => ?_)
  simp [h g hg]

theorem dataOf_append (got : List Got) {i : Nat} (g : Got) :
    dataOf (got ++ [g]) i = if g.call = i then dataOf got i ++ [g.msg.frame.data] else dataOf got i := by
  by_cases h : g.call = i <;> simp [dataOf, List.filter_append, h]

theorem tookOf_append (got : List Got) (g : Got) : tookOf w r (got ++ [g]) = tookOf w r got ++ tookOf w r [g] := by
  simp [tookOf]

theorem plan_acts_zero (w : World) (r : Nat) : w.plan.acts 0 r = [] := by
  by_cases hr : r < w.n
  · exact plan_acts hr
  · exact if_neg hr

theorem start_rankSim (w : World) (Z : Nat → Prop) (r : Nat) : RankSim w Z r (start.core r) where
  seq := rfl
  done := Nat.zero_le _
  low := by simp [start, Sys.core, Rank.core, World.phases]
  high := Nat.zero_le _
  rest _ := ⟨by simp [start, Sys.core, Rank.core, World.phases], by simp [start, Sys.core, Rank.core, plan_acts_zero]⟩
  user p hp := by cases hp
  coll p op hp := by cases hp
  during g hg := by cases hg
  call g hg := by cases hg
  got g hg := by cases hg
  past i op a _ ha := by cases ha

/-! ## What a step does in the plan -/

/-- A step of rank `r` as the plan sees it: nothing, the next phase, a send or
a receive. -/
inductive Effect (w : World) (r : Nat) (mail : List Msg) (c c' : Core) (out : List Packet) : Prop
  | stutter : c'.ticks = c.ticks → c'.done = c.done → tookOf w r c'.got = tookOf w r c.got →
      (w.isColl r c.rets.length = true → c'.got = c.got) → (∀ p ∈ out, ∀ x i q, p.msg.origin ≠ .coll x i q) →
        Effect w r mail c c' out
  | tick : c.done = (w.plan.acts c.ticks r).length → c'.ticks = c.ticks + 1 → c'.done = 0 → c'.got = c.got → out = [] →
      Effect w r mail c c' out
  | send {d : Nat} {m : Datagram} {op : Op} : (w.plan.acts c.ticks r)[c.done]? = some (.send d) →
      c'.ticks = c.ticks → c'.done = c.done + 1 → c'.got = c.got → out = [⟨d, m, .coll r c.rets.length c.ticks⟩] →
      m.hdr.tag = w.plan.tag c.ticks d → (w.prog r)[c.rets.length]? = some op →
      w.phases r c.rets.length < c.ticks → c.ticks ≤ w.phases r (c.rets.length + 1) →
      op.pay (elemAt w.elems c.ticks) (before c.got c.rets.length c.ticks) m.data → Effect w r mail c c' out
  | recv {src : Option Nat} {m : Msg} : (w.plan.acts c.ticks r)[c.done]? = some (.recv src) →
      c'.ticks = c.ticks → c'.done = c.done + 1 → c'.got = c.got ++ [⟨c.rets.length, c.ticks, m⟩] → out = [] →
      w.isColl r c.rets.length = true → m ∈ mail → accepts (selector src) (w.plan.tag c.ticks r) m = true →
      Effect w r mail c c' out

theorem isColl_iff {i : Nat} : w.isColl r i = true ↔ ∃ op, (w.prog r)[i]? = some op ∧ op.call.isSome = true := by
  cases h : (w.prog r)[i]? <;> simp [World.isColl, h]

theorem phases_of_not_coll {i : Nat} (h : w.isColl r i = false) : w.phases r (i + 1) = w.phases r i := by
  cases hop : (w.prog r)[i]? with
  | none => simp [World.phases, List.take_add_one, hop]
  | some op =>
    have hc : op.call = none := by simpa [World.isColl, hop] using h
    simp [phases_succ hop, Op.elems, hc]

theorem drop_eq_cons {α : Type} {l as : List α} {k : Nat} {a : α} (h : l.drop k = a :: as) :
    l[k]? = some a ∧ l.drop (k + 1) = as := by
  constructor
  · have : (l.drop k)[0]? = some a := by rw [h]; rfl
    simpa using this
  · rw [← List.drop_drop, h]
    rfl

theorem Prog.Quiet.guard {α : Type} {b : Prop} [Decidable b] {a : α} {p : Prog α} (h : p.Quiet) :
    (if b then ret a else p).Quiet := by
  split
  · trivial
  · exact h

theorem code_quiet (e : Env) {op : Op} (h : op.call = none) : (op.code e).Quiet := by
  cases op with
  | send buf count type dest tag comm =>
    have hraw : ∀ bytes, ((send_raw e dest tag type count buf bytes).bind
      fun rc => .ret (⟨rc, buf, none⟩ : Ret)).Quiet := by
      intro bytes
      unfold send_raw
      split
      · intro j
        show (Prog.bind (if j < 0 then _ else _) _).Quiet
        split <;> trivial
      · trivial
    show ((MPI_Send e buf count type dest tag comm).bind fun rc => .ret (⟨rc, buf, none⟩ : Ret)).Quiet
    simp only [MPI_Send, Copies.MPI_Send, Io.forget_ite, Io.forget_ret, Copies.forget_send_raw]
    iterate 7 (split; · trivial)
    exact hraw _
  | recv buf count type source tag comm =>
    show (MPI_Recv e buf count type source tag comm).Quiet
    unfold MPI_Recv
    refine .guard (.guard (.guard (.guard (.guard ?_))))
    intro x
    cases x with
    | error rc => trivial
    | ok got =>
      refine .guard ?_
      split <;> trivial
  | _ => cases h

variable {Z : Nat → Prop} {mail : List Msg} {c' : Core} {out : List Packet}

/-- The position of a collective in progress. -/
theorem RankSim.tracks (hi : RankSim w Z r c) {p : Prog Ret} (hp : c.prog? = some p)
    (hc : w.isColl r c.rets.length = true) (hne : ∀ a, p ≠ .ret a) :
    ∃ op σ, (w.prog r)[c.rets.length]? = some op ∧ op.call.isSome = true ∧ Tracks w r c op p σ := by
  obtain ⟨op, hop, hcall⟩ := isColl_iff.1 hc
  rcases hi.coll p op hp hop hcall with ⟨-, -, -, a, ha, -⟩ | ⟨σ, hσ⟩
  · rw [hp, Option.some.injEq] at ha
    exact absurd ha (hne a)
  · exact ⟨op, σ, hop, hcall, hσ⟩

theorem Tracks.phases_lt {op : Op} {p : Prog Ret} {σ : Pos} (ht : Tracks w r c op p σ) (hi : RankSim w Z r c)
    (h : σ.acts ≠ []) : w.phases r c.rets.length < c.ticks :=
  Nat.lt_of_le_of_ne hi.low fun he => h (ht.early he.symm)

theorem move_effect (hi : RankSim w Z r c) (hm : Move w r true mail c c' out) : Effect w r mail c c' out := by
  cases hm with
  | quiet hq =>
    refine .stutter rfl rfl rfl (fun _ => rfl) fun p hp x i q => ?_
    rcases hq p hp with h | h <;> simp [h]
  | call => exact .stutter rfl rfl rfl (fun _ => rfl) (by simp)
  | ret => exact .stutter rfl rfl rfl (fun _ => rfl) (by simp)
  | @tick f h1 =>
    by_cases hc : w.isColl r c.rets.length = true
    · obtain ⟨op, σ, -, -, ht⟩ := hi.tracks h1 hc (by simp)
      have h2 := ht.acts ▸ ht.sat.1
      exact .tick (Nat.le_antisymm hi.done (List.drop_eq_nil_iff.1 h2)) rfl rfl rfl rfl
    · exact (hi.user _ h1 (by simpa using hc)).elim
  | @send d m f h1 =>
    by_cases hc : w.isColl r c.rets.length = true
    · obtain ⟨op, σ, hop, -, ht⟩ := hi.tracks h1 hc (by simp)
      obtain ⟨as, h2, h3, h4, -⟩ := ht.sat
      have hlt := ht.phases_lt hi (by simp [h2])
      rw [ht.acts] at h2
      rw [ht.elem, ht.phase] at h3
      rw [ht.elem, ht.old] at h4
      exact .send (drop_eq_cons h2).1 rfl (by simp [Core.bump, hc]) rfl
        (by simp [Core.origin, hc]) h3 hop hlt hi.high h4
    · exact .stutter rfl (by simp [Core.bump, hc]) rfl (fun _ => rfl) (by simp [Core.origin, hc])
  | @take source tag f m h1 h2 h3 =>
    by_cases hc : w.isColl r c.rets.length = true
    · obtain ⟨op, σ, -, -, ht⟩ := hi.tracks h1 hc (by simp)
      obtain ⟨src, as, h4, rfl, rfl, -⟩ := ht.sat
      rw [ht.acts] at h4
      rw [ht.elem, ht.phase] at h3
      exact .recv (drop_eq_cons h4).1 rfl (by simp [Core.bump, hc]) rfl rfl hc h2 h3
    · refine .stutter rfl (by simp [Core.bump, hc]) ?_ (fun h => absurd h hc) (by simp)
      show tookOf w r (c.got ++ [_]) = _
      rw [tookOf_append]
      simp [tookOf, hc]
  | failSend h1 => cases h1
  | failRecv h1 => cases h1

theorem move_got (hm : Move w r true mail c c' out) :
    c'.got = c.got ∨ ∃ m, c'.got = c.got ++ [⟨c.rets.length, c.ticks, m⟩] := by
  cases hm with
  | take => exact .inr ⟨_, rfl⟩
  | _ => exact .inl rfl

/-! ## A step keeps the agreement -/

theorem call_rankSim (hw : Lawful w) (hr : r < w.n) (hi : RankSim w Z r c) {op : Op} (h1 : c.prog? = none)
    (h2 : (w.prog r)[c.rets.length]? = some op) : RankSim w Z r { c with prog? := some (op.code (w.env r)) } := by
  obtain ⟨ht, hd⟩ := hi.rest (by simp [h1])
  have hlt : ∀ g ∈ c.got, g.call ≠ c.rets.length := fun g hg => by
    rcases hi.call g hg with h | ⟨-, h⟩
    · omega
    · simp [h1] at h
  have hdata : dataOf c.got c.rets.length = [] := by
    unfold dataOf
    rw [List.filter_eq_nil_iff.2 (by simpa using hlt), List.map_nil]
  have hbefore : before c.got c.rets.length c.ticks = [] := by
    unfold before
    rw [List.filter_eq_nil_iff.2 (fun g hg => by simp [hlt g hg]), List.map_nil]
  refine ⟨hi.seq, hi.done, hi.low, hi.high, fun _ => ⟨ht, hd⟩, fun p hp hc => ?_,
    fun p op' hp hop hc => .inr ?_, hi.during, fun g hg => ?_, hi.got, hi.past⟩
  · cases hp
    exact code_quiet _ (by simpa [World.isColl, h2] using hc)
  · cases hp
    replace hop : (w.prog r)[c.rets.length]? = some op' := hop
    obtain rfl : op = op' := by rw [h2] at hop; cases hop; rfl
    obtain ⟨cl, hcl⟩ := Option.isSome_iff_exists.1 hc
    have hmem : op ∈ w.prog r := List.mem_of_getElem? h2
    have helems : op.elems w.n = cl.elems w.n := by simp [Op.elems, hcl]
    exact ⟨⟨elemAt w.elems c.ticks, c.ticks, [], cl.elems w.n, [], []⟩, {
      sat := code_sat hcl (hw.call_benign hr h2 hcl) (hw.fits r hr op hmem) hr
      elem := rfl
      phase := rfl
      acts := by simp [hd]
      early := fun _ => rfl
      rest := by simp [ht, helems]
      old := hbefore.symm
      all := hdata.symm }⟩
  · rcases hi.call g hg with h | ⟨-, h⟩
    · exact .inl h
    · simp [h1] at h

theorem ret_rankSim (hi : RankSim w Z r c) {a : Ret} (h1 : c.prog? = some (.ret a)) (hd : ¬ Doomed w Z r c) :
    RankSim w Z r { c with prog? := none, rets := c.rets ++ [a] } := by
  -- the call has gone through all its phases, and ends as it should
  have hend : c.ticks = w.phases r (c.rets.length + 1) ∧ c.done = (w.plan.acts c.ticks r).length ∧
      ∀ op : Op, (w.prog r)[c.rets.length]? = some op → op.post w.n r a (dataOf c.got c.rets.length) := by
    by_cases hc : w.isColl r c.rets.length = true
    · obtain ⟨op, hop, hcall⟩ := isColl_iff.1 hc
      rcases hi.coll _ op h1 hop hcall with h | ⟨σ, ht⟩
      · exact absurd h hd
      · obtain ⟨h2, h3, h4⟩ := ht.sat
        rw [ht.acts, List.drop_eq_nil_iff] at h2
        rw [ht.rest, List.drop_eq_nil_iff] at h3
        have h5 := phases_succ hop
        have h6 := hi.high
        have h7 := hi.low
        refine ⟨by omega, Nat.le_antisymm hi.done h2, fun op' hop' => ?_⟩
        obtain rfl : op = op' := by rw [hop] at hop'; cases hop'; rfl
        rw [← ht.all]
        exact h4
    · have hc' : w.isColl r c.rets.length = false := by simpa using hc
      obtain ⟨h2, h3⟩ := hi.rest fun _ _ => hc'
      refine ⟨by rw [phases_of_not_coll hc', h2], h3, fun op hop cl hcl => ?_⟩
      simp [World.isColl, hop, hcl] at hc
  obtain ⟨ht, hdone, hpost⟩ := hend
  have hlen : (c.rets ++ [a]).length = c.rets.length + 1 := by simp
  refine ⟨hi.seq, hi.done, ?_, ?_, fun _ => ⟨?_, hdone⟩, fun p hp => (by cases hp), fun p op hp => (by cases hp),
    hi.during, fun g hg => .inl ?_, hi.got, fun i op a' hop ha' => ?_⟩
  · simp only [hlen]; omega
  · simp only [hlen]
    rw [ht]
    exact phases_mono (by omega)
  · simp only [hlen]; exact ht
  · rw [hlen]
    rcases hi.call g hg with h | ⟨h, -⟩ <;> omega
  · rcases Nat.lt_trichotomy i c.rets.length with hlt | rfl | hgt
    · rw [List.getElem?_append_left hlt] at ha'
      exact hi.past i op a' hop ha'
    · simp only [List.getElem?_append_right (Nat.le_refl _), Nat.sub_self, List.getElem?_cons_zero,
        Option.some.injEq] at ha'
      exact ha' ▸ hpost op hop
    · rw [List.getElem?_eq_none (by simp; omega)] at ha'
      cases ha'

theorem tick_rankSim (hw : Lawful w) (hr : r < w.n) (hi : RankSim w Z r c) {f : Nat → Prog Ret}
    (h1 : c.prog? = some (.coll_seq f)) :
    RankSim w Z r { c with
      prog? := some (f ((c.coll_seq + 1) % 2 ^ 32))
      coll_seq := (c.coll_seq + 1) % 2 ^ 32
      ticks := c.ticks + 1
      done := 0 } := by
  have hc : w.isColl r c.rets.length = true := by
    by_contra hc
    exact hi.user _ h1 (by simpa using hc)
  obtain ⟨op, σ, hop, hcall, ht⟩ := hi.tracks h1 hc (by simp)
  obtain ⟨-, e, es, h2, h3⟩ := ht.sat
  rw [ht.rest] at h2
  obtain ⟨he, hes⟩ := drop_eq_cons h2
  have hlow := hi.low
  have hlt := (List.getElem?_eq_some_iff.1 he).1
  have hsucc := phases_succ hop
  have hseq := hi.seq
  have helem : elemAt w.elems (c.ticks + 1) = e := by
    rw [← elemAt_phases hw hr hop he]
    congr 1
    omega
  have hlate : ∀ g ∈ c.got, g.during < c.ticks + 1 := fun g hg => Nat.lt_succ_of_le (hi.during g hg)
  refine ⟨?_, Nat.zero_le _, ?_, ?_, fun h => ?_, fun p hp h => ?_, fun p op' hp hop' _ => .inr ?_, fun g hg => ?_,
    fun g hg => ?_, hi.got, hi.past⟩
  · show (c.coll_seq + 1) % 2 ^ 32 = (c.ticks + 1) % 2 ^ 32
    omega
  · exact hlow.trans (Nat.le_succ _)
  · show c.ticks + 1 ≤ w.phases r (c.rets.length + 1)
    omega
  · rw [h _ rfl] at hc; cases hc
  · rw [h] at hc; cases hc
  · cases hp
    obtain rfl : op = op' := by
      replace hop' : (w.prog r)[c.rets.length]? = some op' := hop'
      rw [hop] at hop'; cases hop'; rfl
    exact ⟨⟨e, c.ticks + 1, e.acts w.n r, es, σ.old ++ σ.cur, []⟩, {
      sat := by
        have h4 := h3 ((c.coll_seq + 1) % 2 ^ 32) (by rw [ht.phase]; omega)
        rwa [ht.phase] at h4
      elem := helem.symm
      phase := rfl
      acts := by
        show e.acts w.n r = (w.plan.acts (c.ticks + 1) r).drop 0
        rw [List.drop_zero, World.plan, plan_acts hr, helem]
      early := fun h => by
        replace h : c.ticks + 1 = w.phases r c.rets.length := h
        omega
      rest := by
        show es = (op.elems w.n).drop (c.ticks + 1 - w.phases r c.rets.length)
        rw [← hes]
        congr 1
        omega
      old := by
        rw [ht.all]
        exact (before_all hlate).symm
      all := by rw [List.append_nil, ht.all] }⟩
  · exact (hi.during g hg).trans (Nat.le_succ _)
  · rcases hi.call g hg with h | ⟨h, -⟩
    · exact .inl h
    · exact .inr ⟨h, rfl⟩

/-- A step inside the call that takes no message and stays in the phase. -/
theorem RankSim.go_on (hi : RankSim w Z r c) {p' : Prog Ret} {k : Nat}
    (hk : k ≤ (w.plan.acts c.ticks r).length)
    (hu : w.isColl r c.rets.length = false → k = c.done ∧ p'.Quiet)
    (hc : ∀ op, (w.prog r)[c.rets.length]? = some op → op.call.isSome = true →
      ∃ σ, Tracks w r { c with prog? := some p', done := k } op p' σ) :
    RankSim w Z r { c with prog? := some p', done := k } := by
  refine ⟨hi.seq, hk, hi.low, hi.high, fun h => ?_, fun p h1 h2 => ?_, fun p op h1 h2 h3 => ?_, hi.during,
    fun g hg => ?_, hi.got, hi.past⟩
  · have h1 := h p' rfl
    obtain ⟨h2, h3⟩ := hi.rest fun _ _ => h1
    exact ⟨h2, (hu h1).1.trans h3⟩
  · cases h1
    exact (hu h2).2
  · cases h1
    exact .inr (hc op h2 h3)
  · rcases hi.call g hg with h | ⟨h, -⟩
    · exact .inl h
    · exact .inr ⟨h, rfl⟩

theorem send_rankSim (hi : RankSim w Z r c) {d : Nat} {m : Datagram} {f : Int → Prog Ret}
    (h1 : c.prog? = some (.sendto d m f)) :
    RankSim w Z r { c with prog? := some (f (16 + m.data.length)), done := c.bump w r } := by
  by_cases hc : w.isColl r c.rets.length = true
  · obtain ⟨op, σ, hop, hcall, ht⟩ := hi.tracks h1 hc (by simp)
    obtain ⟨as, h2, -, -, h3⟩ := ht.sat
    have hlt := ht.phases_lt hi (by simp [h2])
    rw [ht.acts] at h2
    obtain ⟨h4, h5⟩ := drop_eq_cons h2
    have hbump : c.bump w r = c.done + 1 := by simp [Core.bump, hc]
    rw [hbump]
    refine hi.go_on (List.getElem?_eq_some_iff.1 h4).1 (fun h => by rw [h] at hc; cases hc) fun op' hop' _ => ?_
    obtain rfl : op = op' := by rw [hop] at hop'; cases hop'; rfl
    exact ⟨{ σ with acts := as }, {
      sat := h3 _ (by omega)
      elem := ht.elem
      phase := ht.phase
      acts := h5.symm
      early := fun h => absurd h (Nat.ne_of_gt hlt)
      rest := ht.rest
      old := ht.old
      all := ht.all }⟩
  · have hbump : c.bump w r = c.done := by simp [Core.bump, hc]
    rw [hbump]
    refine hi.go_on hi.done (fun h => ⟨rfl, hi.user _ h1 h _⟩) fun op hop hcall => ?_
    exact absurd (isColl_iff.2 ⟨op, hop, hcall⟩) hc

/-- In a collective the receives take messages of collectives, and in the
phases `Z` good ones. -/
theorem take_rankSim (hi : RankSim w Z r c) {source tag : Int} {f : Except Int Datagram → Prog Ret} {m : Msg}
    (h1 : c.prog? = some (.recv_match source tag f))
    (ho : w.isColl r c.rets.length = true → ∃ x i q, m.origin = .coll x i q)
    (hg : w.isColl r c.rets.length = true → Z c.ticks → (elemAt w.elems c.ticks).Good m.frame.data) :
    RankSim w Z r { c with
      prog? := some (f (.ok m.frame))
      done := c.bump w r
      got := c.got ++ [⟨c.rets.length, c.ticks, m⟩] } := by
  have hduring : ∀ g ∈ c.got ++ [(⟨c.rets.length, c.ticks, m⟩ : Got)], g.during ≤ c.ticks := by
    simpa [or_imp, forall_and] using hi.during
  have hcalls : ∀ g ∈ c.got ++ [(⟨c.rets.length, c.ticks, m⟩ : Got)], g.call < c.rets.length ∨
    (g.call = c.rets.length ∧ true) := by
    intro g hgot
    rcases List.mem_append.1 hgot with hgot | hgot
    · rcases hi.call g hgot with h | ⟨h, -⟩
      · exact .inl h
      · exact .inr ⟨h, rfl⟩
    · simp only [List.mem_singleton] at hgot
      exact .inr ⟨by rw [hgot], rfl⟩
  have hpast : ∀ i (op : Op) a, (w.prog r)[i]? = some op → c.rets[i]? = some a →
      op.post w.n r a (dataOf (c.got ++ [⟨c.rets.length, c.ticks, m⟩]) i) := by
    intro i op a hop ha
    have hlt : i < c.rets.length := (List.getElem?_eq_some_iff.1 ha).1
    rw [dataOf_append, if_neg (by simp; omega)]
    exact hi.past i op a hop ha
  by_cases hc : w.isColl r c.rets.length = true
  · obtain ⟨op, σ, hop, hcall, ht⟩ := hi.tracks h1 hc (by simp)
    obtain ⟨src, as, h2, -, -, h3⟩ := ht.sat
    have hlt := ht.phases_lt hi (by simp [h2])
    rw [ht.acts] at h2
    obtain ⟨h4, h5⟩ := drop_eq_cons h2
    have hbump : c.bump w r = c.done + 1 := by simp [Core.bump, hc]
    rw [hbump]
    refine ⟨hi.seq, (List.getElem?_eq_some_iff.1 h4).1, hi.low, hi.high, fun h => ?_, fun p _ h => ?_,
      fun p op' hp hop' _ => ?_, hduring, hcalls, fun g hgot hcg => ?_, hpast⟩
    · rw [h _ rfl] at hc; cases hc
    · rw [h] at hc; cases hc
    · cases hp
      obtain rfl : op = op' := by
        replace hop' : (w.prog r)[c.rets.length]? = some op' := hop'
        rw [hop] at hop'; cases hop'; rfl
      by_cases hgood : σ.elem.Good m.frame.data
      · exact .inr ⟨{ σ with acts := as, cur := σ.cur ++ [m.frame.data] }, {
          sat := (h3 m.frame).1 hgood
          elem := ht.elem
          phase := ht.phase
          acts := h5.symm
          early := fun h => absurd h (Nat.ne_of_gt hlt)
          rest := ht.rest
          old := ht.old.trans (@before_append c.got _ c.ticks ⟨_, c.ticks, m⟩ (Nat.le_refl _)).symm
          all := by
            rw [← List.append_assoc, ht.all]
            exact ((dataOf_append c.got ⟨c.rets.length, c.ticks, m⟩).trans (if_pos rfl)).symm }⟩
      · obtain ⟨a, ha, hbad⟩ := (h3 m.frame).2 hgood
        rw [ht.elem] at hgood
        exact .inl ⟨fun hz => hgood (hg hc hz), hlt, hc, a, congrArg some ha, hbad⟩
    · rcases List.mem_append.1 hgot with hgot | hgot
      · exact hi.got g hgot hcg
      · simp only [List.mem_singleton] at hgot
        subst hgot
        exact ⟨hlt, hi.high, ho hc⟩
  · have hc' : w.isColl r c.rets.length = false := by simpa using hc
    have hbump : c.bump w r = c.done := by simp [Core.bump, hc]
    rw [hbump]
    refine ⟨hi.seq, hi.done, hi.low, hi.high, fun h => hi.rest fun _ _ => hc', fun p hp _ => ?_,
      fun p op hp hop hcall => ?_, hduring, hcalls, fun g hgot hcg => ?_, hpast⟩
    · cases hp
      exact hi.user _ h1 hc' _
    · exact absurd (isColl_iff.2 ⟨op, hop, hcall⟩) hc
    · rcases List.mem_append.1 hgot with hgot | hgot
      · exact hi.got g hgot hcg
      · simp only [List.mem_singleton] at hgot
        rw [hgot] at hcg
        exact absurd hcg hc

theorem move_rankSim (hw : Lawful w) (hr : r < w.n) (hi : RankSim w Z r c) (hm : Move w r true mail c c' out)
    (hd : ¬ Doomed w Z r c)
    (ho : ∀ m, c'.got = c.got ++ [⟨c.rets.length, c.ticks, m⟩] → w.isColl r c.rets.length = true →
      (∃ x i q, m.origin = .coll x i q) ∧ (Z c.ticks → (elemAt w.elems c.ticks).Good m.frame.data)) :
    RankSim w Z r c' := by
  cases hm with
  | quiet => exact hi
  | call h1 h2 => exact call_rankSim hw hr hi h1 h2
  | ret h1 => exact ret_rankSim hi h1 hd
  | tick h1 => exact tick_rankSim hw hr hi h1
  | send h1 => exact send_rankSim hi h1
  | @take source tag f m h1 h2 h3 => exact take_rankSim hi h1 (fun hc => (ho m rfl hc).1) fun hc => (ho m rfl hc).2
  | failSend h1 => cases h1
  | failRecv h1 => cases h1

end

end LibNeoos.Mpi
