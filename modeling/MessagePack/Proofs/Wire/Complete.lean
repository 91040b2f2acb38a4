import MessagePack.Proofs.Wire.Header
/-!
# Complete values

`Complete k n bs` says that `bs` is `n` complete wire values, one after another, in which arrays and
maps nest at most `k` levels.  It speaks of bytes alone: of headers, of what they own and of the
values they owe.

Main statements:

* `Complete.unique`: complete values end where they end, whatever follows them;
* `Complete.deep_iff`: one array or map takes one level more than what it holds.
-/

namespace MessagePack

/-- So many complete values, nesting at most so many levels. -/
inductive Complete : Nat → Nat → List UInt8 → Prop
  | none {k : Nat} : Complete k 0 []
  /-- A value that owes no others, and the rest. -/
  | flat {k n : Nat} {b : UInt8} {body later : List UInt8}
      (flat : (Header.ofByte b).isContainer = false) (own : (Header.ofByte b).Owes body 0)
      (next : Complete k n later) : Complete k (n + 1) (b :: (body ++ later))
  /-- An array or a map with the values in it, and the rest. -/
  | deep {k n owed : Nat} {b : UInt8} {body inside later : List UInt8}
      (deep : (Header.ofByte b).isContainer = true) (own : (Header.ofByte b).Owes body owed)
      (inner : Complete k owed inside) (next : Complete (k + 1) n later) :
      Complete (k + 1) (n + 1) (b :: (body ++ (inside ++ later)))

namespace Complete

variable {k l m n owed : Nat} {u v w r s body inside : List UInt8} {h : Header}

/-! ## 1. Cutting and joining -/

theorem append (hu : Complete k m u) (hv : Complete k n v) : Complete k (m + n) (u ++ v) := by
  induction hu with
  | none => rwa [Nat.zero_add]
  | @flat k m b body later flat own next ih =>
    rw [Nat.add_right_comm, List.cons_append, List.append_assoc]
    exact .flat flat own (ih hv)
  | @deep k m owed b body inside later deep own inner next _ ih =>
    rw [Nat.add_right_comm, List.cons_append, List.append_assoc, List.append_assoc]
    exact .deep deep own inner (ih hv)

/-- More levels do no harm. -/
theorem mono (hu : Complete k n u) (le : k ≤ l) : Complete l n u := by
  induction hu generalizing l with
  | none => exact .none
  | flat flat own next ih => exact .flat flat own (ih le)
  | deep deep own inner next ihi ihn =>
    obtain ⟨l, rfl⟩ : ∃ j, l = j + 1 := ⟨l - 1, by omega⟩
    exact .deep deep own (ihi (by omega)) (ihn le)

/-- Values of any nesting after values of any nesting. -/
theorem exists_append (hu : ∃ k, Complete k m u) (hv : ∃ k, Complete k n v) :
    ∃ k, Complete k (m + n) (u ++ v) := by
  obtain ⟨k, hu⟩ := hu
  obtain ⟨l, hv⟩ := hv
  exact ⟨max k l, (hu.mono (Nat.le_max_left k l)).append (hv.mono (Nat.le_max_right k l))⟩

theorem ne_nil (hu : Complete k (n + 1) u) : u ≠ [] := by
  cases hu <;> exact List.cons_ne_nil _ _

/-- **Complete values end where they end, whatever follows.** -/
theorem unique (hu : Complete k n u) (hv : Complete l n v) (e : u ++ r = v ++ s) :
    u = v ∧ r = s := by
  induction hu generalizing l v r s with
  | none =>
    cases hv
    exact ⟨rfl, e⟩
  | flat flat own next ih =>
    cases hv with
    | flat flat' own' next' =>
      rw [List.cons_append, List.cons_append, List.append_assoc, List.append_assoc] at e
      obtain ⟨rfl, behind⟩ := List.cons.inj e
      obtain ⟨rfl, -, behind⟩ := own.unique own' behind
      obtain ⟨rfl, rfl⟩ := ih next' behind
      exact ⟨rfl, rfl⟩
    | deep deep' own' inner' next' =>
      obtain ⟨rfl, -⟩ := List.cons.inj e
      rw [flat] at deep'
      cases deep'
  | deep deep own inner next ihi ihn =>
    cases hv with
    | flat flat' own' next' =>
      obtain ⟨rfl, -⟩ := List.cons.inj e
      rw [deep] at flat'
      cases flat'
    | deep deep' own' inner' next' =>
      simp only [List.cons_append, List.append_assoc] at e
      obtain ⟨rfl, behind⟩ := List.cons.inj e
      obtain ⟨rfl, rfl, behind⟩ := own.unique own' behind
      obtain ⟨rfl, after⟩ := ihi inner' behind
      obtain ⟨rfl, rfl⟩ := ihn next' after
      exact ⟨rfl, rfl⟩

theorem split (hu : Complete k (m + n) u) :
    ∃ v w, u = v ++ w ∧ Complete k m v ∧ Complete k n w := by
  induction m generalizing u with
  | zero => exact ⟨[], u, rfl, .none, by rwa [Nat.zero_add] at hu⟩
  | succ m ih =>
    rw [Nat.add_right_comm] at hu
    cases hu with
    | flat flat own next =>
      obtain ⟨v, w, rfl, hv, hw⟩ := ih next
      exact ⟨_, w, by rw [List.cons_append, List.append_assoc], .flat flat own hv, hw⟩
    | deep deep own inner next =>
      obtain ⟨v, w, rfl, hv, hw⟩ := ih next
      refine ⟨_, w, ?_, .deep deep own inner hv, hw⟩
      simp only [List.cons_append, List.append_assoc]

/-- Where the first values are known to end, the levels of the whole are levels of both parts. -/
theorem of_append (huv : Complete k (m + n) (u ++ v)) (hu : Complete l m u) :
    Complete k m u ∧ Complete k n v := by
  obtain ⟨u', v', e, hu', hv'⟩ := huv.split
  obtain ⟨rfl, rfl⟩ := hu.unique hu' e
  exact ⟨hu', hv'⟩

/-! ## 2. Arrays and maps -/

theorem of_deep (stands : h.Stands) (deep : h.isContainer = true) (own : h.Owes body owed)
    (inner : Complete k owed inside) : Complete (k + 1) 1 (h.toByte :: (body ++ inside)) := by
  rw [← stands] at deep own
  have value : Complete (k + 1) 1 (h.toByte :: (body ++ (inside ++ []))) :=
    .deep deep own inner .none
  rwa [List.append_nil] at value

/-- **An array or a map takes one level more than what it holds.** -/
theorem deep_iff (stands : h.Stands) (deep : h.isContainer = true) (own : h.Owes body owed) :
    Complete k 1 (h.toByte :: (body ++ inside)) ↔ ∃ j, k = j + 1 ∧ Complete j owed inside := by
  constructor
  · intro whole
    generalize e : h.toByte :: (body ++ inside) = bytes at whole
    cases whole with
    | flat flat' own' next' =>
      obtain ⟨rfl, -⟩ := List.cons.inj e
      rw [stands, deep] at flat'
      cases flat'
    | @deep j _ _ b body' inside' later' deep' own' inner' next' =>
      obtain ⟨rfl, behind⟩ := List.cons.inj e
      rw [stands] at own'
      obtain ⟨-, rfl, behind⟩ := own.unique own' behind
      cases next'
      rw [List.append_nil] at behind
      exact ⟨j, rfl, behind ▸ inner'⟩
  · rintro ⟨j, rfl, inner⟩
    exact of_deep stands deep own inner

end Complete

/-! ## 3. Values without levels -/

/-- One complete value that owes no others. -/
def Flat (u : List UInt8) : Prop :=
  ∃ b body, u = b :: body ∧ (Header.ofByte b).isContainer = false ∧ (Header.ofByte b).Owes body 0

namespace Flat

variable {u : List UInt8}

/-- A header that owes nothing is a value with its body. -/
theorem of_header {h : Header} {body : List UInt8} (stands : h.Stands)
    (flat : h.isContainer = false) (own : h.Owes body 0) : Flat (h.toByte :: body) := by
  rw [← stands] at flat own
  exact ⟨_, _, rfl, flat, own⟩

/-- A value without parts is one at any level. -/
theorem complete (flat : Flat u) (k : Nat) : Complete k 1 u := by
  obtain ⟨b, body, rfl, flat, own⟩ := flat
  have value : Complete k 1 (b :: (body ++ [])) := .flat flat own .none
  rwa [List.append_nil] at value

theorem ne_nil (flat : Flat u) : u ≠ [] := by
  obtain ⟨b, body, rfl, -⟩ := flat
  exact List.cons_ne_nil b body

theorem nil : Flat [Header.nil.toByte] := .of_header Header.stands_nil rfl ⟨rfl, rfl⟩

end Flat

/-- A nil that starts a complete value is all of it. -/
theorem Complete.nil_alone {k : Nat} {w : List UInt8}
    (value : Complete k 1 (Header.nil.toByte :: w)) : w = [] := by
  exact ((value.unique (Flat.nil.complete 0) (r := []) (s := w) (by simp)).2).symm

end MessagePack
