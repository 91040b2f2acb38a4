import MessagePack.Proofs.Wire.Announce
import MessagePack.Proofs.Wire.Complete
/-!
# Wire values as trees

A complete value is a tree: a header byte, the bytes that belong to the header alone and, behind
them, the values that the header owes.  A `WireValue` is such a tree; it need not be well formed,
and `WireValue.Formed` says of one of its nodes that the header asks for exactly what is there.

`WireValue.Everywhere P w` says that `P` holds of `w` and of all values in it.  What depends on
where a value stands among others, such as being a key, is said of the value that holds it.

Main statements:

* `Complete.exists_trees`: complete values are the bytes of well-formed trees;
* `WireValue.unique`: of only one tree.
-/

namespace MessagePack

/-- A header byte, what belongs to the header alone, and the values behind that. -/
inductive WireValue where
  | node (byte : UInt8) (body : List UInt8) (inside : List WireValue)

namespace WireValue

variable {v w : WireValue} {vs ws : List WireValue} {P : WireValue → Prop} {n : Nat}

/-! ## 1. Trees -/

def byte : WireValue → UInt8
  | .node b _ _ => b

def body : WireValue → List UInt8
  | .node _ body _ => body

def inside : WireValue → List WireValue
  | .node _ _ inside => inside

def header (w : WireValue) : Header := .ofByte w.byte

mutual

/-- The bytes of a value. -/
def bytes : WireValue → List UInt8
  | .node b body inside => b :: (body ++ bytesAll inside)

/-- The bytes of values that stand one after another. -/
def bytesAll : List WireValue → List UInt8
  | [] => []
  | w :: ws => bytes w ++ bytesAll ws

end

mutual

/-- How many levels of arrays and maps a value nests.  Empty ones are levels too. -/
def depth : WireValue → Nat
  | .node b _ inside => if (Header.ofByte b).isContainer then depthAll inside + 1 else 0

/-- The greatest depth of some values. -/
def depthAll : List WireValue → Nat
  | [] => 0
  | w :: ws => max (depth w) (depthAll ws)

end

/-- The first two of a list, the next two and so on. -/
def pairs {α : Type} : List α → List (α × α)
  | a :: b :: rest => (a, b) :: pairs rest
  | _ => []

/-- What stands in pairs, one after another. -/
def unpair {α : Type} (es : List (α × α)) : List α := es.flatMap fun e => [e.1, e.2]

/-- The keys of a map. -/
def keys (w : WireValue) : List WireValue :=
  if w.header.isMap then (pairs w.inside).map Prod.fst else []

/-- The header owes what is there. -/
def Formed (w : WireValue) : Prop := w.header.Owes w.body w.inside.length

/-- `P` holds of the value and of all values in it. -/
inductive Everywhere (P : WireValue → Prop) : WireValue → Prop
  | mk {w : WireValue} (here : P w) (within : ∀ x ∈ w.inside, Everywhere P x) : Everywhere P w

namespace Everywhere

/-- What holds everywhere holds at the top, -/
theorem here (all : w.Everywhere P) : P w := by
  cases all
  assumption

/-- and everywhere below. -/
theorem within (all : w.Everywhere P) : ∀ x ∈ w.inside, x.Everywhere P := by
  cases all
  assumption

/-- There is nothing in a value without parts. -/
theorem leaf {b : UInt8} {body : List UInt8} (here : P (.node b body [])) :
    (node b body []).Everywhere P :=
  ⟨here, by simp [inside]⟩

end Everywhere

variable {b : UInt8} {body : List UInt8}

/-- Pairs that were taken apart are put together again. -/
theorem pairs_unpair {α : Type} (es : List (α × α)) : pairs (unpair es) = es := by
  induction es with
  | nil => rfl
  | cons e es ih => exact congrArg (e :: ·) ih

theorem length_unpair {α : Type} (es : List (α × α)) : (unpair es).length = 2 * es.length := by
  induction es with
  | nil => rfl
  | cons e es ih =>
    change (unpair es).length + 1 + 1 = 2 * (es.length + 1)
    omega

/-- An even number of elements are the parts of pairs. -/
theorem exists_unpair {α : Type} {xs : List α} (even : xs.length = 2 * n) :
    ∃ es : List (α × α), es.length = n ∧ unpair es = xs := by
  induction n generalizing xs with
  | zero => exact ⟨[], rfl, (List.eq_nil_of_length_eq_zero even).symm⟩
  | succ n ih =>
    match xs, even with
    | a :: b :: rest, even =>
      have fewer : rest.length = 2 * n := by
        simp only [List.length_cons] at even
        omega
      obtain ⟨es, rfl, rfl⟩ := ih fewer
      exact ⟨(a, b) :: es, rfl, rfl⟩

/-- What holds of each one holds of both of each pair. -/
theorem forall_mem_unpair {α : Type} {es : List (α × α)} {P : α → Prop} :
    (∀ x ∈ unpair es, P x) ↔ ∀ e ∈ es, P e.1 ∧ P e.2 := by
  induction es with
  | nil => simp [unpair]
  | cons e es ih =>
    change (∀ x ∈ e.1 :: e.2 :: unpair es, P x) ↔ _
    rw [List.forall_mem_cons, List.forall_mem_cons, List.forall_mem_cons, ih, and_assoc]

/-- A map is formed throughout if its header owes its entries, and they are. -/
theorem everywhere_formed_unpair {es : List (WireValue × WireValue)}
    (own : (Header.ofByte b).Owes body (2 * es.length))
    (each : ∀ e ∈ es, e.1.Everywhere Formed ∧ e.2.Everywhere Formed) :
    (node b body (unpair es)).Everywhere Formed := by
  rw [← length_unpair] at own
  exact ⟨own, forall_mem_unpair.2 each⟩

/-- Trees in a row have their bytes in a row. -/
theorem bytesAll_eq_flatMap (ws : List WireValue) : bytesAll ws = ws.flatMap bytes := by
  induction ws with
  | nil => rfl
  | cons w ws ih => rw [bytesAll, ih, List.flatMap_cons]

theorem bytesAll_append (vs ws : List WireValue) :
    bytesAll (vs ++ ws) = bytesAll vs ++ bytesAll ws := by
  simp only [bytesAll_eq_flatMap, List.flatMap_append]

theorem bytesAll_unpair (es : List (WireValue × WireValue)) :
    bytesAll (unpair es) = es.flatMap fun e => e.1.bytes ++ e.2.bytes := by
  induction es with
  | nil => rfl
  | cons e es ih =>
    change e.1.bytes ++ (e.2.bytes ++ bytesAll (unpair es)) = _
    rw [ih, List.flatMap_cons, List.append_assoc]

theorem bytes_flat (b : UInt8) (body : List UInt8) : (node b body []).bytes = b :: body := by
  rw [bytes, bytesAll, List.append_nil]

/-- The depth of many is that of the deepest. -/
theorem depthAll_le : depthAll ws ≤ n ↔ ∀ x ∈ ws, x.depth ≤ n := by
  induction ws with
  | nil => simp [depthAll]
  | cons w ws ih => rw [depthAll, Nat.max_le, ih, List.forall_mem_cons]

/-- An array or a map is a level above what it holds. -/
theorem depth_le_of_deep (deep : (Header.ofByte b).isContainer = true) :
    (node b body ws).depth ≤ n ↔ ∃ m, n = m + 1 ∧ ∀ x ∈ ws, x.depth ≤ m := by
  rw [depth, if_pos deep]
  constructor
  · intro le
    obtain ⟨m, rfl⟩ : ∃ m, n = m + 1 := ⟨n - 1, by omega⟩
    exact ⟨m, rfl, depthAll_le.1 (Nat.le_of_succ_le_succ le)⟩
  · rintro ⟨m, rfl, each⟩
    exact Nat.succ_le_succ (depthAll_le.2 each)

/-- A well-formed value that is no array and no map has no values in it. -/
theorem Formed.inside_eq_nil (formed : w.Formed) (flat : w.header.isContainer = false) :
    w.inside = [] :=
  List.eq_nil_of_length_eq_zero (formed.eq_zero flat)

/-- A formed value that is no container has no parts. -/
theorem Formed.flat (formed : w.Formed) (single : w.header.isContainer = false) : Flat w.bytes := by
  have empty := formed.inside_eq_nil single
  obtain ⟨b, body, inside⟩ := w
  obtain rfl : inside = [] := empty
  exact ⟨b, body, bytes_flat b body, single, formed⟩

theorem keys_of_isMap (map : (Header.ofByte b).isMap = true) (es : List (WireValue × WireValue)) :
    (node b body (unpair es)).keys = es.map Prod.fst := by
  have all : (node b body (unpair es)).keys = (pairs (unpair es)).map Prod.fst := if_pos map
  rw [all, pairs_unpair]

/-! ## 2. Well-formed trees are complete values -/

theorem complete_all (each : ∀ x ∈ ws, Complete x.depth 1 x.bytes) :
    Complete (depthAll ws) ws.length (bytesAll ws) := by
  induction ws with
  | nil => exact .none
  | cons w ws ih =>
    obtain ⟨first, rest⟩ := List.forall_mem_cons.1 each
    rw [List.length_cons, Nat.add_comm]
    exact (first.mono (Nat.le_max_left _ _)).append ((ih rest).mono (Nat.le_max_right _ _))

/-- **The bytes of a well-formed tree are one complete value of its depth.** -/
theorem complete (formed : w.Everywhere Formed) : Complete w.depth 1 w.bytes := by
  induction formed with
  | @mk w own _ ih =>
    obtain ⟨b, body, inside⟩ := w
    change (Header.ofByte b).Owes body inside.length at own
    have inner : Complete (depthAll inside) inside.length (bytesAll inside) := complete_all ih
    rw [bytes, depth]
    split
    · rename_i deep
      have value := Complete.of_deep (Header.stands_ofByte b) deep own inner
      rwa [Header.toByte_ofByte] at value
    · rename_i single
      rw [Bool.not_eq_true] at single
      exact (Formed.flat (w := .node b body inside) own single).complete 0

/-! ## 3. The only tree of its bytes -/

theorem eq_of_bytesAll (each : ∀ x ∈ vs, ∀ y : WireValue, y.Everywhere Formed →
      x.bytes = y.bytes → x = y)
    (left : ∀ x ∈ vs, x.Everywhere Formed) (right : ∀ y ∈ ws, y.Everywhere Formed)
    (length : vs.length = ws.length) (e : bytesAll vs = bytesAll ws) : vs = ws := by
  induction vs generalizing ws with
  | nil => exact (List.eq_nil_of_length_eq_zero length.symm).symm
  | cons v vs ih =>
    cases ws with
    | nil => cases length
    | cons w ws =>
      obtain ⟨same, each⟩ := List.forall_mem_cons.1 each
      obtain ⟨hv, left⟩ := List.forall_mem_cons.1 left
      obtain ⟨hw, right⟩ := List.forall_mem_cons.1 right
      -- the first values end at the same place, as both are complete
      obtain ⟨first, rest⟩ := (complete hv).unique (complete hw) e
      rw [same w hw first, ih each left right (Nat.succ.inj length) rest]

/-- **Bytes are those of one well-formed tree only.** -/
theorem unique (hv : v.Everywhere Formed) (hw : w.Everywhere Formed) (e : v.bytes = w.bytes) :
    v = w := by
  induction hv generalizing w with
  | @mk v own within ih =>
    obtain ⟨b, body, inside⟩ := v
    obtain ⟨b', body', inside'⟩ := w
    have own' : (Header.ofByte b').Owes body' inside'.length := hw.here
    change (Header.ofByte b).Owes body inside.length at own
    obtain ⟨rfl, behind⟩ := List.cons.inj e
    obtain ⟨rfl, length, rest⟩ := own.unique own' behind
    obtain rfl : inside = inside' :=
      eq_of_bytesAll (fun x hx y hy => ih x hx hy) within hw.within length rest
    rfl

end WireValue

/-! ## 4. Complete values are well-formed trees -/

namespace Complete

open WireValue

variable {k n : Nat} {u : List UInt8}

/-- **Complete values are the bytes of well-formed trees.** -/
theorem exists_trees (complete : Complete k n u) :
    ∃ ws : List WireValue, bytesAll ws = u ∧ ws.length = n ∧ ∀ w ∈ ws, w.Everywhere Formed := by
  induction complete with
  | none => exact ⟨[], rfl, rfl, by simp⟩
  | @flat k n b body later flat own next ih =>
    obtain ⟨ws, rfl, rfl, each⟩ := ih
    refine ⟨.node b body [] :: ws, by simp [bytesAll, bytes], rfl, ?_⟩
    exact List.forall_mem_cons.2 ⟨.leaf own, each⟩
  | @deep k n owed b body inside later deep own inner next ihi ihn =>
    obtain ⟨vs, rfl, rfl, within⟩ := ihi
    obtain ⟨ws, rfl, rfl, each⟩ := ihn
    refine ⟨.node b body vs :: ws, by simp [bytesAll, bytes], rfl, ?_⟩
    exact List.forall_mem_cons.2 ⟨⟨own, within⟩, each⟩

/-- Every complete value is the bytes of a tree. -/
theorem exists_tree (complete : Complete k 1 u) :
    ∃ w : WireValue, w.bytes = u ∧ w.Everywhere Formed := by
  obtain ⟨ws, rfl, length, each⟩ := complete.exists_trees
  obtain ⟨w, rfl⟩ := List.length_eq_one_iff.1 length
  exact ⟨w, by simp [bytesAll], each w (by simp)⟩

end Complete

end MessagePack
