/-
  Fixed-size C arrays and NUL-terminated strings.

  C code that collects results writes each one to the next index of an array
  of fixed size and a terminator behind the last; nothing checks the index.
  Here such an array is the list of the entries written so far, and a write
  past its end, like a read past the end of a string, is a `Fault`.  A C
  function that may do so is a computation in `Except Fault`.

  * `push` and `terminate` write the next entry and the terminator;
  * `readAt` reads a string, whose NUL may be read but nothing behind it;
  * `mapOk` and `Returns` speak about the value of a function that returns
    `0` (here `none`) or `1` with a value.
-/
import Mathlib.Data.List.Forall2

namespace Lib

/-- Where a C function leaves the defined behaviour of the language. -/
inductive Fault where
  /-- a write past the end of an array -/
  | overrun
  /-- a read past the terminator of a string -/
  | overread
  /-- the bound on the iterations of a modelled loop is used up -/
  | fuel
  deriving DecidableEq, Repr

variable {α β : Type}

@[simp] theorem ok_bind (a : α) (f : α → Except Fault β) : (Except.ok a >>= f) = f a := rfl

@[simp] theorem error_bind (e : Fault) (f : α → Except Fault β) :
    (Except.error e >>= f) = .error e := rfl

theorem exists_of_bind_eq_ok {x : Except Fault α} {f : α → Except Fault β} {b : β}
    (h : x >>= f = .ok b) : ∃ a, x = .ok a ∧ f a = .ok b := by
  cases x with
  | ok a => exact ⟨a, rfl, h⟩
  | error e => cases h

theorem not_exists_error_eq_ok (e : Fault) : ¬∃ a : α, Except.error e = .ok a := by
  rintro ⟨a, h⟩
  cases h

theorem mapM_eq_ok {f : α → Except Fault β} : ∀ {xs : List α} {ys : List β},
    xs.mapM f = .ok ys ↔ List.Forall₂ (fun x y => f x = .ok y) xs ys
  | [], ys => by
    rw [List.mapM_nil, List.forall₂_nil_left_iff]
    exact ⟨fun h => (Except.ok.inj h).symm, fun h => h ▸ rfl⟩
  | x :: xs, ys => by
    rw [List.mapM_cons, List.forall₂_cons_left_iff]
    rcases hx : f x with e | y
    · exact iff_of_false (by simp) (by simp)
    rw [ok_bind]
    constructor
    · intro h
      rcases hxs : xs.mapM f with e | zs
      · rw [hxs] at h; cases h
      · rw [hxs] at h
        exact ⟨y, zs, rfl, mapM_eq_ok.1 hxs, (Except.ok.inj h).symm⟩
    · rintro ⟨z, zs, hz, hzs, rfl⟩
      rw [mapM_eq_ok.2 hzs]
      exact congrArg (fun y => Except.ok (y :: zs)) (Except.ok.inj hz)

theorem mapM_congr {f g : α → Except Fault β} {xs : List α} (h : ∀ x ∈ xs, f x = g x) :
    xs.mapM f = xs.mapM g := by
  induction xs with
  | nil => rfl
  | cons x xs ih =>
    rw [List.mapM_cons, List.mapM_cons, h x List.mem_cons_self,
      ih fun y hy => h y (List.mem_cons_of_mem _ hy)]

theorem mapM_eq_ok_of_ite {f : α → Except Fault β} {P : α → Prop} [DecidablePred P] {g : α → β}
    {e : Fault} {xs : List α} (h : ∀ x ∈ xs, f x = if P x then .ok (g x) else .error e) (ys : List β) :
    xs.mapM f = .ok ys ↔ (∀ x ∈ xs, P x) ∧ ys = xs.map g := by
  rw [mapM_eq_ok]
  induction xs generalizing ys with
  | nil => simp [List.forall₂_nil_left_iff]
  | cons x xs ih =>
    have ih := ih fun y hy => h y (List.mem_cons_of_mem _ hy)
    rw [List.forall₂_cons_left_iff, List.forall_mem_cons, List.map_cons, h x List.mem_cons_self]
    simp only [ih]
    by_cases hx : P x
    · rw [if_pos hx]
      constructor
      · rintro ⟨y, zs, hy, ⟨hall, rfl⟩, rfl⟩
        exact ⟨⟨hx, hall⟩, by rw [Except.ok.inj hy]⟩
      · rintro ⟨⟨-, hall⟩, rfl⟩
        exact ⟨_, _, rfl, ⟨hall, rfl⟩, rfl⟩
    · simp [hx]

theorem exists_of_mapM_eq_ok {f : α → Except Fault β} {xs : List α} {ys : List β}
    (h : xs.mapM f = .ok ys) {x : α} (hx : x ∈ xs) : ∃ y ∈ ys, f x = .ok y := by
  induction mapM_eq_ok.1 h with
  | nil => cases hx
  | cons hxy hrest ih =>
    rcases List.mem_cons.1 hx with rfl | hx
    · exact ⟨_, List.mem_cons_self, hxy⟩
    · obtain ⟨y, hy, hfy⟩ := ih (mapM_eq_ok.2 hrest) hx
      exact ⟨y, List.mem_cons_of_mem _ hy, hfy⟩

theorem exists_of_mem_mapM {f : α → Except Fault β} {xs : List α} {ys : List β}
    (h : xs.mapM f = .ok ys) {y : β} (hy : y ∈ ys) : ∃ x ∈ xs, f x = .ok y := by
  induction mapM_eq_ok.1 h with
  | nil => cases hy
  | cons hxy hrest ih =>
    rcases List.mem_cons.1 hy with rfl | hy
    · exact ⟨_, List.mem_cons_self, hxy⟩
    · obtain ⟨x, hx, hfx⟩ := ih (mapM_eq_ok.2 hrest) hy
      exact ⟨x, List.mem_cons_of_mem _ hx, hfx⟩

/-- `xs[n++] = x` on an array of size `cap` with `n` entries. -/
def push (cap : ℕ) (xs : List α) (x : α) : Except Fault (List α) :=
  if xs.length < cap then .ok (xs ++ [x]) else .error .overrun

/-- `xs[n] = 0` on an array of size `cap` with `n` entries. -/
def terminate (cap : ℕ) (xs : List α) : Except Fault (List α) :=
  if xs.length < cap then .ok xs else .error .overrun

theorem push_of_lt {cap : ℕ} {xs : List α} (x : α) (h : xs.length < cap) :
    push cap xs x = .ok (xs ++ [x]) := if_pos h

theorem terminate_of_lt {cap : ℕ} {xs : List α} (h : xs.length < cap) :
    terminate cap xs = .ok xs := if_pos h

/-! ## Functions that may fail -/

/-- The function with its value changed. -/
def mapOk (g : α → β) : Except Fault (Option α) → Except Fault (Option β) := Except.map (Option.map g)

@[simp] theorem mapOk_error (g : α → β) (e : Fault) : mapOk g (.error e) = .error e := rfl

@[simp] theorem mapOk_none (g : α → β) : mapOk g (.ok none) = .ok none := rfl

@[simp] theorem mapOk_some (g : α → β) (a : α) : mapOk g (.ok (some a)) = .ok (some (g a)) := rfl

@[simp] theorem pure_eq_ok (a : α) : (pure a : Except Fault α) = .ok a := rfl

/-- The function followed by one that may fail but not fault. -/
def bindOk (r : Except Fault (Option α)) (k : α → Option β) : Except Fault (Option β) :=
  r.map (·.bind k)

@[simp] theorem bindOk_error (e : Fault) (k : α → Option β) : bindOk (.error e) k = .error e := rfl

@[simp] theorem bindOk_some (a : α) (k : α → Option β) : bindOk (.ok (some a)) k = .ok (k a) := rfl

/-- If the function returns a value, it satisfies `Q`. -/
def Returns (r : Except Fault (Option α)) (Q : α → Prop) : Prop := ∀ a, r = .ok (some a) → Q a

theorem returns_error (e : Fault) (Q : α → Prop) : Returns (.error e) Q := by simp [Returns]

theorem returns_none (Q : α → Prop) : Returns (.ok none) Q := by simp [Returns]

theorem returns_some {a : α} {Q : α → Prop} (h : Q a) : Returns (.ok (some a)) Q := by
  simpa [Returns] using h

theorem returns_push {cap : ℕ} {xs : List α} {x : α} {k : List α → Except Fault (Option β)}
    {Q : β → Prop} (h : xs.length < cap → Returns (k (xs ++ [x])) Q) :
    Returns (push cap xs x >>= k) Q := by
  by_cases hlt : xs.length < cap
  · rw [push_of_lt x hlt, ok_bind]; exact h hlt
  · rw [push, if_neg hlt]; exact returns_error _ _

theorem returns_terminate {cap : ℕ} {xs : List α} {k : List α → Except Fault (Option β)}
    {Q : β → Prop} (h : xs.length < cap → Returns (k xs) Q) :
    Returns (terminate cap xs >>= k) Q := by
  by_cases hlt : xs.length < cap
  · rw [terminate_of_lt hlt, ok_bind]; exact h hlt
  · rw [terminate, if_neg hlt]; exact returns_error _ _

/-! ## Strings -/

/-- `s[pos]` for a string `s` whose terminator is not among its characters. -/
def readAt [OfNat α 0] (s : List α) (pos : ℕ) : Except Fault α :=
  match (s ++ [0])[pos]? with
  | some c => .ok c
  | none => .error .overread

/-- The character at the end of a part already read. -/
theorem readAt_length [OfNat α 0] (pre rest : List α) :
    readAt (pre ++ rest) pre.length = .ok (rest.headD 0) := by
  unfold readAt
  rw [List.append_assoc, List.getElem?_append_right (Nat.le_refl _), Nat.sub_self]
  cases rest <;> rfl

/-- The look-ahead at the character behind `c`. -/
theorem readAt_length_succ [OfNat α 0] (pre : List α) (c : α) (rest : List α) :
    readAt (pre ++ c :: rest) (pre.length + 1) = .ok (rest.headD 0) := by
  have := readAt_length (pre ++ [c]) rest
  rwa [List.append_assoc, List.singleton_append, List.length_append, List.length_singleton] at this

end Lib
