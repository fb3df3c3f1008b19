import LibNeoos.Mpi.Api
/-!
# Elementwise folds

`combine` is what one pass of `reduce_apply` computes, element by element, and
`fold` what a root that folds contributions one after the other ends up with.
On `MPI_INT` and `MPI_LONG` the operations are those of the integers modulo
`2^32` and `2^64`, or their maximum and minimum; they commute, and the order of
the contributions does not matter (`fold_perm`).
-/

namespace LibNeoos.Mpi

/-- Element `i` of a buffer of elements of `w` bytes. -/
def slice (w i : Nat) (b : List UInt8) : List UInt8 := (b.drop (i * w)).take w

section
variable {T : Type} (A : Arith T)

/-- Element `i` of the result is `f` of the elements `i` of `d` and `s`. -/
def elementwise (f : T → T → T) (n : Nat) (d s : List UInt8) : List UInt8 :=
  (List.range n).flatMap fun i => A.store (f (A.load (slice A.size i d)) (A.load (slice A.size i s)))

/-- An element is stored in as many bytes as it has. -/
def Arith.Sized : Prop := ∀ v, (A.store v).length = A.size

end

/-! ## Bytes -/

@[simp] theorem leBytes_length (w n : Nat) : (leBytes w n).length = w := by
  induction w generalizing n with
  | zero => rfl
  | succ w ih => simp [leBytes, ih]

theorem leNat_leBytes (w n : Nat) : leNat (leBytes w n) = n % 256 ^ w := by
  induction w generalizing n with
  | zero => simp [leBytes, leNat, Nat.mod_one]
  | succ w ih =>
    simp only [leBytes, leNat, ih, UInt8.toNat_ofNat']
    rw [show 256 ^ (w + 1) = 256 * 256 ^ w by ring, Nat.mod_mul]

theorem intArith_sized (w : Nat) : (intArith w).Sized := fun v => by simp [intArith]

theorem doubleArith_sized : doubleArith.Sized := fun v => by simp [doubleArith]

/-- An integer is read back as it was written. -/
theorem intArith_load_store (w : Nat) (v : BitVec (8 * w)) : (intArith w).load ((intArith w).store v) = v := by
  apply BitVec.eq_of_toNat_eq
  have hv : v.toNat < 2 ^ (8 * w) := v.isLt
  simp only [intArith, BitVec.toNat_ofNat, leNat_leBytes]
  rw [show (256 : Nat) = 2 ^ 8 from rfl, ← Nat.pow_mul, Nat.mod_mod, Nat.mod_eq_of_lt hv]

/-! ## One pass -/

section
variable {T : Type} {A : Arith T} {f : T → T → T}

theorem slice_succ (w i : Nat) (b : List UInt8) : slice w (i + 1) b = slice w i (b.drop w) := by
  unfold slice
  rw [List.drop_drop]
  congr 2
  ring

theorem elementwise_succ (n : Nat) (d s : List UInt8) :
    elementwise A f (n + 1) d s =
      A.store (f (A.load (d.take A.size)) (A.load (s.take A.size))) ++
        elementwise A f n (d.drop A.size) (s.drop A.size) := by
  unfold elementwise
  rw [List.range_succ_eq_map, List.flatMap_cons, List.flatMap_map]
  congr 1
  · simp [slice]
  · simp only [Nat.succ_eq_add_one, slice_succ]

theorem elementwise_length (hA : A.Sized) (n : Nat) (d s : List UInt8) :
    (elementwise A f n d s).length = n * A.size := by
  induction n generalizing d s with
  | zero => simp [elementwise]
  | succ n ih =>
    rw [elementwise_succ, List.length_append, hA, ih]
    ring

/-- Only the first `n` elements are read. -/
theorem elementwise_append (n : Nat) {d : List UInt8} (x s : List UInt8) (hd : n * A.size ≤ d.length) :
    elementwise A f n (d ++ x) s = elementwise A f n d s := by
  induction n generalizing d s with
  | zero => simp [elementwise]
  | succ n ih =>
    have hsz : A.size ≤ d.length := by
      have : (n + 1) * A.size = n * A.size + A.size := by ring
      omega
    rw [elementwise_succ, elementwise_succ, List.take_append_of_le_length hsz, List.drop_append_of_le_length hsz]
    rw [ih]
    rw [List.length_drop]
    have : (n + 1) * A.size = n * A.size + A.size := by ring
    omega

theorem reduce_loop_eq {op : Int} (hf : A.apply op = some f) (n : Nat) (dst src : List UInt8)
    (hd : n * A.size ≤ dst.length) (hs : n * A.size ≤ src.length) :
    reduce_loop A op n dst src = some (MPI_SUCCESS, elementwise A f n dst src ++ dst.drop (n * A.size)) := by
  induction n generalizing dst src with
  | zero => simp [reduce_loop, elementwise]
  | succ n ih =>
    have hmul : (n + 1) * A.size = n * A.size + A.size := by ring
    unfold reduce_loop
    simp only [hf]
    rw [if_pos ⟨by omega, by omega⟩, ih _ _ (by rw [List.length_drop]; omega) (by rw [List.length_drop]; omega)]
    simp only [Option.map_some, Option.some.injEq, Prod.mk.injEq, true_and]
    rw [elementwise_succ, List.drop_drop, hmul, Nat.add_comm, List.append_assoc]

/-- Element `i` of a result. -/
theorem slice_elementwise (hA : A.Sized) (n : Nat) (d s : List UInt8) {i : Nat} (hi : i < n) :
    slice A.size i (elementwise A f n d s) =
      A.store (f (A.load (slice A.size i d)) (A.load (slice A.size i s))) := by
  induction n generalizing d s i with
  | zero => omega
  | succ n ih =>
    rw [elementwise_succ]
    cases i with
    | zero => simp [slice, hA _]
    | succ i =>
      rw [slice_succ, slice_succ, slice_succ, List.drop_append_of_le_length (by rw [hA]),
        List.drop_of_length_le (by rw [hA]), List.nil_append]
      exact ih _ _ (by omega)

end

/-! ## The operations on integers -/

/-- What `op` computes; for an `op` the library does not know, nothing. -/
def Arith.fn {T : Type} (A : Arith T) (op : Int) : T → T → T := (A.apply op).getD fun d _ => d

/-- Commutative and associative, so that operands can be taken in any order. -/
structure Exchange {T : Type} (f : T → T → T) : Prop where
  comm : ∀ a b, f a b = f b a
  right_comm : ∀ z a b, f (f z a) b = f (f z b) a

section
variable {w : Nat}

theorem slt_iff (a b : BitVec w) : BitVec.slt a b = true ↔ a.toInt < b.toInt := by simp [BitVec.slt]

/-- The larger operand, by the order of the integers. -/
theorem exchange_max : Exchange fun a b : BitVec w => if BitVec.slt a b then b else a := by
  have key : ∀ a b : BitVec w, (if BitVec.slt a b then b else a).toInt = max a.toInt b.toInt := by
    intro a b
    simp only [slt_iff]
    split <;> omega
  refine ⟨fun a b => ?_, fun z a b => ?_⟩ <;> apply BitVec.eq_of_toInt_eq <;> simp only [key] <;> omega

theorem exchange_min : Exchange fun a b : BitVec w => if BitVec.slt b a then b else a := by
  have key : ∀ a b : BitVec w, (if BitVec.slt b a then b else a).toInt = min a.toInt b.toInt := by
    intro a b
    simp only [slt_iff]
    split <;> omega
  refine ⟨fun a b => ?_, fun z a b => ?_⟩ <;> apply BitVec.eq_of_toInt_eq <;> simp only [key] <;> omega

theorem exchange_intArith (w : Nat) {op : Int} (h : MPI_SUM ≤ op) (h' : op ≤ MPI_MIN) :
    Exchange ((intArith w).fn op) := by
  have hop : op = MPI_SUM ∨ op = MPI_PROD ∨ op = MPI_MAX ∨ op = MPI_MIN := by simp at *; omega
  rcases hop with rfl | rfl | rfl | rfl
  · refine ⟨fun a b => BitVec.add_comm a b, fun z a b => ?_⟩
    show z + a + b = z + b + a
    rw [BitVec.add_assoc, BitVec.add_comm a b, ← BitVec.add_assoc]
  · refine ⟨fun a b => BitVec.mul_comm a b, fun z a b => ?_⟩
    show z * a * b = z * b * a
    rw [BitVec.mul_assoc, BitVec.mul_comm a b, ← BitVec.mul_assoc]
  · exact exchange_max
  · exact exchange_min

end

/-! ## Folds -/

/-- One contribution folded into another. -/
def combine (type op : Int) (count : Nat) (d s : List UInt8) : List UInt8 :=
  if type = MPI_INT then elementwise (intArith 4) ((intArith 4).fn op) count d s
  else if type = MPI_LONG then elementwise (intArith 8) ((intArith 8).fn op) count d s
  else elementwise doubleArith (doubleArith.fn op) count d s

/-- The contributions folded from left to right. -/
def fold (type op : Int) (count : Nat) : List (List UInt8) → List UInt8
  | [] => []
  | c :: cs => cs.foldl (combine type op count) c

/-- The types with arithmetic. -/
def Arithmetic (type : Int) : Prop := type = MPI_INT ∨ type = MPI_LONG ∨ type = MPI_DOUBLE

instance (type : Int) : Decidable (Arithmetic type) := inferInstanceAs (Decidable (_ ∨ _))

section
variable {type op : Int} {count : Nat}

theorem apply_eq_fn {T : Type} (A : Arith T) (h : MPI_SUM ≤ op) (h' : op ≤ MPI_MIN) : A.apply op = some (A.fn op) := by
  have hop : op = MPI_SUM ∨ op = MPI_PROD ∨ op = MPI_MAX ∨ op = MPI_MIN := by simp at *; omega
  rcases hop with rfl | rfl | rfl | rfl <;> rfl

/-- The element type a datatype stands for. -/
theorem arith_of (ht : Arithmetic type) : ∃ (T : Type) (A : Arith T), A.Sized ∧ (A.size : Int) = type_size type ∧
    (∀ op n d s, combine type op n d s = elementwise A (A.fn op) n d s) ∧
    ∀ dst src op (n : Nat), reduce_apply dst src n type op = reduce_loop A op n dst src := by
  rcases ht with rfl | rfl | rfl
  · exact ⟨_, intArith 4, intArith_sized 4, rfl, fun _ _ _ _ => rfl, fun _ _ _ _ => rfl⟩
  · exact ⟨_, intArith 8, intArith_sized 8, rfl, fun _ _ _ _ => rfl, fun _ _ _ _ => rfl⟩
  · exact ⟨_, doubleArith, doubleArith_sized, rfl, fun _ _ _ _ => rfl, fun _ _ _ _ => rfl⟩

theorem combine_length (ht : Arithmetic type) (d s : List UInt8) :
    ((combine type op count d s).length : Int) = count * type_size type := by
  obtain ⟨T, A, hA, hsize, hc, -⟩ := arith_of ht
  rw [hc, elementwise_length hA, ← hsize]
  push_cast
  rfl

/-- One pass of `reduce_apply` over buffers that are large enough. -/
theorem reduce_apply_eq (ht : Arithmetic type) (h : MPI_SUM ≤ op) (h' : op ≤ MPI_MIN) {acc x src : List UInt8}
    (ha : (acc.length : Int) = count * type_size type) (hs : (src.length : Int) = count * type_size type) :
    reduce_apply (acc ++ x) src count type op = some (MPI_SUCCESS, combine type op count acc src ++ x) := by
  obtain ⟨T, A, hA, hsize, hc, hr⟩ := arith_of ht
  have hacc : acc.length = count * A.size := by rw [← hsize] at ha; exact_mod_cast ha
  have hsrc : src.length = count * A.size := by rw [← hsize] at hs; exact_mod_cast hs
  rw [hr, reduce_loop_eq (apply_eq_fn A h h') _ _ _ (by simp [hacc]) (by omega), hc,
    elementwise_append _ _ _ (by omega), ← hacc, List.drop_left]

/-- The order of the contributions does not matter for integers. -/
theorem combine_exchange (ht : type = MPI_INT ∨ type = MPI_LONG) (h : MPI_SUM ≤ op) (h' : op ≤ MPI_MIN) :
    Exchange (combine type op count) := by
  have key : ∀ w : Nat, Exchange (elementwise (intArith w) ((intArith w).fn op) count) := by
    intro w
    obtain ⟨hcomm, hright⟩ := exchange_intArith w h h'
    refine ⟨fun a b => ?_, fun z a b => ?_⟩
    · unfold elementwise
      exact List.flatMap_congr fun i _ => by rw [hcomm]
    · refine List.flatMap_congr fun i hi => ?_
      have hi' : i < count := by simpa using hi
      rw [slice_elementwise (intArith_sized w) _ _ _ hi', slice_elementwise (intArith_sized w) _ _ _ hi',
        intArith_load_store, intArith_load_store, hright]
  rcases ht with rfl | rfl
  · exact key 4
  · exact key 8

theorem fold_perm (ht : type = MPI_INT ∨ type = MPI_LONG) (h : MPI_SUM ≤ op) (h' : op ≤ MPI_MIN)
    {l l' : List (List UInt8)} (hp : l.Perm l') : fold type op count l = fold type op count l' := by
  obtain ⟨hcomm, hright⟩ := @combine_exchange type op count ht h h'
  induction hp with
  | nil => rfl
  | cons x hp _ => exact hp.foldl_eq' (fun a _ b _ z => hright z a b) x
  | swap x y l =>
    simp only [fold, List.foldl_cons]
    rw [hcomm]
  | trans _ _ ih1 ih2 => exact ih1.trans ih2

theorem fold_snoc (c : List UInt8) (cs : List (List UInt8)) (d : List UInt8) :
    fold type op count (c :: (cs ++ [d])) = combine type op count (fold type op count (c :: cs)) d := by
  simp [fold]

theorem fold_length (ht : Arithmetic type) {c : List UInt8} (cs : List (List UInt8))
    (hc : (c.length : Int) = count * type_size type) :
    ((fold type op count (c :: cs)).length : Int) = count * type_size type := by
  rcases List.eq_nil_or_concat cs with rfl | ⟨cs, d, rfl⟩
  · simpa [fold] using hc
  · rw [List.concat_eq_append, fold_snoc, combine_length ht]

end

end LibNeoos.Mpi
