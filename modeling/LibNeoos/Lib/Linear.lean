import LibNeoos.Lib.Threads
import Mathlib.Data.List.Infix
/-!
# Concurrent objects that behave as atomic ones

An `Object` says what each operation may return and do when operations come one
after another. Threads that call the operations of an implementation leave a
history of calls and returns, in which operations overlap. The history is
linearizable if its operations can be put in one order that the object allows, so
that each takes effect at a moment between its call and its return.

`Atomic` is the object itself as a concurrent system: after its call, an operation
takes effect in one step, then it returns. `linearizable_of_simulation` is the rule
for an implementation: each of its steps is matched by steps of `Atomic` that show
the same calls and returns. `linearizable_of_slots` is the same for threads over a
shared memory, where a step matters to the thread that does it only (`Slot.Step`).
-/

namespace LibNeoos.Lib.Linear

variable {T Q O R : Type}

/-- In the state `q`, the operation `o` of thread `t` can return `r` and leave `q'`. -/
structure Object (T Q O R : Type) where
  init : Q
  apply : Q → T → O → R → Q → Prop

/-- What a client sees of an operation. -/
inductive Event (T O R : Type)
  | call (t : T) (o : O)
  | ret (t : T) (r : R)
  deriving DecidableEq

/-- An operation that has taken effect. -/
structure Effect (T O R : Type) where
  thread : T
  op : O
  res : R
  deriving DecidableEq

/-! ## Histories -/

section
variable [DecidableEq T] {t : T}

def Event.callOf (t : T) : Event T O R → Option O
  | .call u o => if u = t then some o else none
  | .ret .. => none

def Event.retOf (t : T) : Event T O R → Option R
  | .call .. => none
  | .ret u r => if u = t then some r else none

/-- The operations thread `t` has called. -/
def callsOf (t : T) (h : List (Event T O R)) : List O := h.filterMap (Event.callOf t)

/-- What thread `t`'s calls have returned. -/
def retsOf (t : T) (h : List (Event T O R)) : List R := h.filterMap (Event.retOf t)

/-- The operations of thread `t` among those that have taken effect. -/
def effectsOf (t : T) (order : List (Effect T O R)) : List (Effect T O R) := order.filter (·.thread = t)

variable {h : List (Event T O R)} {order : List (Effect T O R)} {u : T} {o : O} {r : R}

theorem callsOf_call : callsOf t (h ++ [.call u o]) = callsOf t h ++ if u = t then [o] else [] := by
  by_cases hu : u = t <;> simp [callsOf, Event.callOf, hu]

theorem callsOf_ret : callsOf t (h ++ [.ret u r]) = callsOf t h := by
  simp [callsOf, Event.callOf]

theorem retsOf_call : retsOf t (h ++ [.call u o]) = retsOf t h := by
  simp [retsOf, Event.retOf]

theorem retsOf_ret : retsOf t (h ++ [.ret u r]) = retsOf t h ++ if u = t then [r] else [] := by
  by_cases hu : u = t <;> simp [retsOf, Event.retOf, hu]

theorem effectsOf_snoc (e : Effect T O R) :
    effectsOf t (order ++ [e]) = effectsOf t order ++ if e.thread = t then [e] else [] := by
  by_cases he : e.thread = t <;> simp [effectsOf, he]

end

/-! ## Linearizability -/

/-- The object can do these operations one after another, from `q` to `q'`. -/
inductive Object.Legal (X : Object T Q O R) (q : Q) : List (Effect T O R) → Q → Prop
  | nil : Legal X q [] q
  | snoc {order : List (Effect T O R)} {q₁ q₂ : Q} {t : T} {o : O} {r : R} :
      Legal X q order q₁ → X.apply q₁ t o r q₂ → Legal X q (order ++ [⟨t, o, r⟩]) q₂

/-- When a first part `h₁` of the history had happened, a first part of `order` had
taken effect: all operations that had returned by then, and none that had not been
called. -/
def InTime [DecidableEq T] (h : List (Event T O R)) (order : List (Effect T O R)) : Prop :=
  ∀ h₁, h₁ <+: h → ∃ order₁, order₁ <+: order ∧ ∀ t,
    (retsOf t h₁).length ≤ (effectsOf t order₁).length ∧ (effectsOf t order₁).length ≤ (callsOf t h₁).length

/-- `order` is a sequential order of the operations of a history. It has each
thread's operations in the order of their calls, all that have returned, with what
they returned, and perhaps one that has not. An operation that had returned before
another was called comes first. -/
structure Linearizes [DecidableEq T] (X : Object T Q O R) (h : List (Event T O R)) (order : List (Effect T O R)) :
    Prop where
  legal : ∃ q, X.Legal X.init order q
  calls : ∀ t, (effectsOf t order).map (·.op) <+: callsOf t h
  rets : ∀ t, retsOf t h <+: (effectsOf t order).map (·.res)
  inTime : InTime h order

/-- The history is one of an object that does each operation at one moment. -/
def Linearizable [DecidableEq T] (X : Object T Q O R) (h : List (Event T O R)) : Prop := ∃ order, Linearizes X h order

/-! ## The atomic object -/

/-- What a thread does: nothing, an operation that has not taken effect, or one that
has and will return `r`. -/
inductive Slot (O R : Type)
  | idle
  | called (o : O)
  | done (r : R)
  deriving DecidableEq

structure Atomic (T Q O R : Type) where
  state : Q
  slot : T → Slot O R

section
variable [DecidableEq T]

def Object.start (X : Object T Q O R) : Atomic T Q O R := ⟨X.init, fun _ => .idle⟩

/-- The steps of the atomic object from one state to another, with the calls and
returns they show. -/
inductive Atomic.Path (X : Object T Q O R) (a : Atomic T Q O R) : List (Event T O R) → Atomic T Q O R → Prop
  | nil : Path X a [] a
  | call {h : List (Event T O R)} {b : Atomic T Q O R} {t : T} {o : O} : Path X a h b → b.slot t = .idle →
      Path X a (h ++ [.call t o]) ⟨b.state, Function.update b.slot t (.called o)⟩
  | effect {h : List (Event T O R)} {b : Atomic T Q O R} {t : T} {o : O} {r : R} {q : Q} : Path X a h b →
      b.slot t = .called o → X.apply b.state t o r q → Path X a h ⟨q, Function.update b.slot t (.done r)⟩
  | ret {h : List (Event T O R)} {b : Atomic T Q O R} {t : T} {r : R} : Path X a h b → b.slot t = .done r →
    Path X a (h ++ [.ret t r]) ⟨b.state, Function.update b.slot t .idle⟩

variable {X : Object T Q O R} {a b c : Atomic T Q O R} {h h' : List (Event T O R)}

theorem Atomic.Path.trans (hab : Path X a h b) (hbc : Path X b h' c) : Path X a (h ++ h') c := by
  induction hbc with
  | nil => rwa [List.append_nil]
  | call _ hs ih =>
    rw [← List.append_assoc]
    exact ih.call hs
  | effect _ hs hq ih => exact ih.effect hs hq
  | ret _ hs ih =>
    rw [← List.append_assoc]
    exact ih.ret hs

/-- How the calls and returns of a thread and its operations in `order` are related,
by what the thread does. -/
def Slot.Agrees (calls : List O) (rets : List R) (effects : List (Effect T O R)) : Slot O R → Prop
  | .idle => calls = effects.map (·.op) ∧ effects.map (·.res) = rets
  | .called o => calls = effects.map (·.op) ++ [o] ∧ effects.map (·.res) = rets
  | .done r => calls = effects.map (·.op) ∧ effects.map (·.res) = rets ++ [r]

/-- Every operation has taken effect between its call and its return. -/
structure Recorded (X : Object T Q O R) (h : List (Event T O R)) (order : List (Effect T O R)) (b : Atomic T Q O R) :
    Prop where
  legal : X.Legal X.init order b.state
  agrees : ∀ t, (b.slot t).Agrees (callsOf t h) (retsOf t h) (effectsOf t order)
  inTime : InTime h order

omit [DecidableEq T] in
theorem Slot.Agrees.between {calls : List O} {rets : List R} {effects : List (Effect T O R)} {x : Slot O R}
    (hx : x.Agrees calls rets effects) : rets.length ≤ effects.length ∧ effects.length ≤ calls.length := by
  cases x with
  | idle =>
    obtain ⟨rfl, rfl⟩ := hx
    simp
  | called o =>
    obtain ⟨rfl, rfl⟩ := hx
    simp
  | done r =>
    obtain ⟨rfl, hres⟩ := hx
    have hlen := congrArg List.length hres
    simp only [List.length_map, List.length_append] at hlen ⊢
    omega

/-- After one more event all that has taken effect is `order` again. -/
theorem InTime.snoc {order : List (Effect T O R)} {e : Event T O R} {slot : T → Slot O R} (htime : InTime h order)
    (hagree : ∀ t, (slot t).Agrees (callsOf t (h ++ [e])) (retsOf t (h ++ [e])) (effectsOf t order)) :
    InTime (h ++ [e]) order := by
  intro h₁ hpre
  rcases List.prefix_concat_iff.1 hpre with rfl | hpre
  · exact ⟨order, List.prefix_refl _, fun t => (hagree t).between⟩
  · exact htime h₁ hpre

/-- The atomic object records an order as it goes: an operation is added to it when it
takes effect. -/
theorem Atomic.Path.recorded (hp : Path X X.start h b) : ∃ order, Recorded X h order b := by
  induction hp with
  | nil =>
    refine ⟨[], .nil, ?_, ?_⟩
    · intro t
      exact ⟨rfl, rfl⟩
    · intro h₁ hpre
      rw [List.prefix_nil] at hpre
      subst hpre
      exact ⟨[], List.prefix_refl _, fun t => ⟨le_rfl, le_rfl⟩⟩
  | @call h b t o _ hs ih =>
    obtain ⟨order, hlegal, hagree, htime⟩ := ih
    have hagree' : ∀ u, (Function.update b.slot t (.called o) u).Agrees (callsOf u (h ++ [.call t o]))
        (retsOf u (h ++ [.call t o])) (effectsOf u order) := by
      intro u
      have hu := hagree u
      rw [callsOf_call, retsOf_call]
      by_cases hut : u = t
      · subst hut
        rw [hs] at hu
        rw [Function.update_self, if_pos rfl]
        exact ⟨congrArg (· ++ [o]) hu.1, hu.2⟩
      · rw [Function.update_of_ne hut, if_neg (Ne.symm hut), List.append_nil]
        exact hu
    exact ⟨order, hlegal, hagree', htime.snoc hagree'⟩
  | @effect h b t o r q _ hs hq ih =>
    obtain ⟨order, hlegal, hagree, htime⟩ := ih
    refine ⟨order ++ [⟨t, o, r⟩], hlegal.snoc hq, ?_, ?_⟩
    · intro u
      have hu := hagree u
      rw [effectsOf_snoc]
      by_cases hut : u = t
      · subst hut
        rw [hs] at hu
        simp only [if_true, Function.update_self, Slot.Agrees, List.map_append, List.map_cons, List.map_nil, hu.1, hu.2,
          and_self]
      · simp only [if_neg (Ne.symm hut), List.append_nil, Function.update_of_ne hut]
        exact hu
    · intro h₁ hpre
      obtain ⟨order₁, hsub, hbetween⟩ := htime h₁ hpre
      exact ⟨order₁, hsub.trans (List.prefix_append _ _), hbetween⟩
  | @ret h b t r _ hs ih =>
    obtain ⟨order, hlegal, hagree, htime⟩ := ih
    have hagree' : ∀ u, (Function.update b.slot t .idle u).Agrees (callsOf u (h ++ [.ret t r]))
        (retsOf u (h ++ [.ret t r])) (effectsOf u order) := by
      intro u
      have hu := hagree u
      rw [callsOf_ret, retsOf_ret]
      by_cases hut : u = t
      · subst hut
        rw [hs] at hu
        rw [Function.update_self, if_pos rfl]
        exact hu
      · rw [Function.update_of_ne hut, if_neg (Ne.symm hut), List.append_nil]
        exact hu
    exact ⟨order, hlegal, hagree', htime.snoc hagree'⟩

theorem Recorded.linearizes {order : List (Effect T O R)} (hr : Recorded X h order b) : Linearizes X h order := by
  refine ⟨⟨b.state, hr.legal⟩, ?_, ?_, hr.inTime⟩
  · intro t
    have ht := hr.agrees t
    cases hb : b.slot t with rw [hb] at ht
    | idle => rw [ht.1]
    | called o =>
      rw [ht.1]
      exact List.prefix_append _ _
    | done r => rw [ht.1]
  · intro t
    have ht := hr.agrees t
    cases hb : b.slot t with rw [hb] at ht
    | idle => rw [ht.2]
    | called o => rw [ht.2]
    | done r =>
      rw [ht.2]
      exact List.prefix_append _ _

end

/-! ## Implementations -/

section
variable {S L E : Type}

/-- A run, with what a client sees of it. -/
inductive Traced (step : S → L → Option S) (ok : S → L → S → Prop) (event : S → L → S → Option E) (s₀ : S) :
    List E → S → Prop
  | nil : Traced step ok event s₀ [] s₀
  | snoc {h : List E} {s s' : S} {l : L} : Traced step ok event s₀ h s → ok s l s' → step s l = some s' →
      Traced step ok event s₀ (h ++ (event s l s').toList) s'

variable {step : S → L → Option S} {ok : S → L → S → Prop} {s₀ s : S}

theorem Traced.run {event : S → L → S → Option E} {h : List E} (ht : Traced step ok event s₀ h s) :
    Run step ok s₀ s := by
  induction ht with
  | nil => exact .nil
  | snoc _ hok hst ih => exact .snoc ih hok hst

/-- What a client sees of an executed list of labels. -/
def events (step : S → L → Option S) (event : S → L → S → Option E) : S → List L → List E
  | _, [] => []
  | s, l :: ls => ((step s l).map fun s' => (event s l s').toList ++ events step event s' ls).getD []

theorem exec_traced {event : S → L → S → Option E} {okb : S → L → Bool} (hm : ∀ s l s', okb s l = true → ok s l s')
    (ls : List L) : ∀ h s s', Traced step ok event s₀ h s → exec step okb s ls = some s' →
      Traced step ok event s₀ (h ++ events step event s ls) s' := by
  induction ls with
  | nil =>
    intro h s s' ht hx
    simp only [exec, Option.some.injEq] at hx
    subst hx
    simpa [events] using ht
  | cons l ls ih =>
    intro h s s' ht hx
    simp only [exec] at hx
    split at hx
    · rename_i hb
      obtain ⟨s₁, h1, h2⟩ := Option.bind_eq_some_iff.1 hx
      have := ih _ _ _ (ht.snoc (hm _ _ _ hb) h1) h2
      simpa [events, h1] using this
    · cases hx

variable [DecidableEq T]

/-- An implementation whose steps are matched by steps of the atomic object has
linearizable histories only. -/
theorem linearizable_of_simulation {X : Object T Q O R} {event : S → L → S → Option (Event T O R)}
    (sim : S → Atomic T Q O R → Prop) (h0 : sim s₀ X.start)
    (hs : ∀ s l s' a, Run step ok s₀ s → sim s a → ok s l s' → step s l = some s' →
      ∃ a', Atomic.Path X a (event s l s').toList a' ∧ sim s' a')
    {h : List (Event T O R)} (ht : Traced step ok event s₀ h s) : Linearizable X h := by
  have hpath : ∃ a, Atomic.Path X X.start h a ∧ sim s a := by
    induction ht with
    | nil => exact ⟨X.start, .nil, h0⟩
    | snoc ht hok hst ih =>
      obtain ⟨a, hp, ha⟩ := ih
      obtain ⟨a', hp', ha'⟩ := hs _ _ _ _ ht.run ha hok hst
      exact ⟨a', hp.trans hp', ha'⟩
  obtain ⟨a, hp, -⟩ := hpath
  obtain ⟨order, hr⟩ := hp.recorded
  exact ⟨order, hr.linearizes⟩

/-- What one step of an implementation is to the atomic object: nothing, a call, an
effect, both of these, or a return. -/
inductive Slot.Step (X : Object T Q O R) (t : T) (q : Q) : Slot O R → Option (Event T O R) → Slot O R → Q → Prop
  | skip {x : Slot O R} : Step X t q x none x q
  | call {o : O} : Step X t q .idle (some (.call t o)) (.called o) q
  | effect {o : O} {r : R} {q' : Q} : X.apply q t o r q' → Step X t q (.called o) none (.done r) q'
  | both {o : O} {r : R} {q' : Q} : X.apply q t o r q' → Step X t q .idle (some (.call t o)) (.done r) q'
  | ret {r : R} : Step X t q (.done r) (some (.ret t r)) .idle q

theorem Slot.Step.path {X : Object T Q O R} {t : T} {a : Atomic T Q O R} {e : Option (Event T O R)}
    {x : Slot O R} {q : Q}
    (hs : Slot.Step X t a.state (a.slot t) e x q) : Atomic.Path X a e.toList ⟨q, Function.update a.slot t x⟩ := by
  generalize ha : a.slot t = y at hs
  cases hs with
  | skip =>
    rw [← ha, Function.update_eq_self]
    exact .nil
  | call => exact Atomic.Path.nil.call ha
  | effect hq => exact Atomic.Path.nil.effect ha hq
  | both hq =>
    have hp := (Atomic.Path.nil.call ha).effect (X := X) (Function.update_self ..) hq
    rwa [Function.update_idem] at hp
  | ret => exact Atomic.Path.nil.ret ha

/-- The rule for threads over a shared memory: `slot` says what a thread does, `rep`
which states of the object a configuration stands for. -/
theorem linearizable_of_slots {M P A : Type} {X : Object T Q O R} {move : T → M → P → A → Option (M × P)}
    {ok : Conf T M P → T × A → Conf T M P → Prop} {event : Conf T M P → T × A → Conf T M P → Option (Event T O R)}
    {s₀ s : Conf T M P} (slot : P → Slot O R) (rep : Conf T M P → Q → Prop) (h0 : rep s₀ X.init)
    (hidle : ∀ t, slot (s₀.thr t) = .idle)
    (hs : ∀ s t a s' q, Run (Conf.step move) ok s₀ s → rep s q → ok s (t, a) s' → s.step move (t, a) = some s' →
      ∃ q', Slot.Step X t q (slot (s.thr t)) (event s (t, a) s') (slot (s'.thr t)) q' ∧ rep s' q')
    {h : List (Event T O R)} (ht : Traced (Conf.step move) ok event s₀ h s) : Linearizable X h := by
  have hstart : X.start.slot = fun t => slot (s₀.thr t) := by
    funext t
    exact (hidle t).symm
  refine linearizable_of_simulation (fun s a => a.slot = (fun t => slot (s.thr t)) ∧ rep s a.state) ⟨hstart, h0⟩ ?_ ht
  rintro s ⟨t, act⟩ s' ⟨q, slots⟩ hrun ⟨hslots, hrep⟩ hok hst
  obtain ⟨q', hstep, hrep'⟩ := hs s t act s' q hrun hrep hok hst
  subst hslots
  refine ⟨_, Slot.Step.path hstep, ?_, hrep'⟩
  funext u
  by_cases hu : u = t
  · subst hu
    exact Function.update_self ..
  · dsimp only
    rw [Function.update_of_ne hu, Conf.step_other hst hu]

end

end LibNeoos.Lib.Linear
