import MessagePack.Datum
/-!
# The order of mapping keys

Two keys compare the one way as they compare the other, turned around.  A key that comes behind all
others in a map's order is bound behind them.

Main statements: `Datum.order_swap` and `MapOrder.insert_last`.
-/

namespace MessagePack

namespace Datum

/-! ## 1. Turning around -/

theorem orderBytes_swap : ∀ as bs : List UInt8, orderBytes bs as = (orderBytes as bs).swap
  | [], [] | [], _ :: _ | _ :: _, [] => rfl
  | a :: as, b :: bs => by
    have first : compare b.toNat a.toNat = (compare a.toNat b.toNat).swap :=
      Std.OrientedOrd.eq_swap
    rw [orderBytes, orderBytes, orderBytes_swap as bs, Ordering.swap_then, first]

mutual

/-- **Keys compare the one way as they compare the other, turned around.** -/
theorem order_swap : ∀ a b : Datum, order b a = (order a b).swap
  | .seq as, b => by
    cases b with
    | seq bs => exact orderEach_swap as bs
    | _ => rfl
  | .present a, b => by
    cases b with
    | present b => exact order_swap a b
    | _ => rfl
  | .map as, b => by
    cases b with
    | map bs => exact orderEntries_swap as bs
    | _ => rfl
  | .record as, b => by
    cases b with
    | record bs => exact orderEach_swap as bs
    | _ => rfl
  | .bool a, b => by
    cases b with
    | bool b =>
      change compare b.toNat a.toNat = (compare a.toNat b.toNat).swap
      exact Std.OrientedOrd.eq_swap
    | _ => rfl
  | .int a, b => by
    cases b with
    | int b =>
      change compare b a = (compare a b).swap
      exact Std.OrientedOrd.eq_swap
    | _ => rfl
  | .text a, b => by
    cases b with
    | text b =>
      change compare b a = (compare a b).swap
      exact Std.OrientedOrd.eq_swap
    | _ => rfl
  | .bytes a, b => by
    cases b with
    | bytes b => exact orderBytes_swap a b
    | _ => rfl
  | .timestamp a, b => by
    cases b with
    | timestamp b =>
      change b.order a = (a.order b).swap
      have seconds : compare b.seconds.toInt a.seconds.toInt =
          (compare a.seconds.toInt b.seconds.toInt).swap := Std.OrientedOrd.eq_swap
      have nanos : compare b.nanos.val a.nanos.val = (compare a.nanos.val b.nanos.val).swap :=
        Std.OrientedOrd.eq_swap
      rw [Timestamp.order, Timestamp.order, seconds, nanos, Ordering.swap_then]
    | _ => rfl
  | .clockTime a, b => by
    cases b with
    | clockTime b =>
      change compare b.toNanos a.toNanos = (compare a.toNanos b.toNanos).swap
      exact Std.OrientedOrd.eq_swap
    | _ => rfl
  | .single _, b | .double _, b | .dynamic _, b | .absent, b => by
    cases b <;> rfl

theorem orderEach_swap : ∀ as bs : List Datum, orderEach bs as = (orderEach as bs).swap
  | [], [] | [], _ :: _ | _ :: _, [] => rfl
  | a :: as, b :: bs => by
    rw [orderEach, orderEach, order_swap a b, orderEach_swap as bs, Ordering.swap_then]

theorem orderEntries_swap : ∀ as bs : List (Datum × Datum),
    orderEntries bs as = (orderEntries as bs).swap
  | [], [] | [], _ :: _ | _ :: _, [] => rfl
  | (k, v) :: as, (l, w) :: bs => by
    rw [orderEntries, orderEntries, order_swap k l, order_swap v w, orderEntries_swap as bs,
      Ordering.swap_then, Ordering.swap_then]

end

end Datum

/-! ## 2. Keys behind others -/

/-- Where a map of this order puts a new key behind another. -/
def MapOrder.IsAfter : MapOrder → Datum → Datum → Prop
  | .sorted, k, l => Datum.order k l = .gt
  | .arrival, k, l => Datum.order k l ≠ .eq

/-- A key that comes after all others is bound behind them. -/
theorem MapOrder.insert_last (order : MapOrder) {k v : Datum} {es : List (Datum × Datum)}
    (after : ∀ e ∈ es, order.IsAfter k e.1) : order.insert k v es = es ++ [(k, v)] := by
  induction es with
  | nil => cases order <;> rfl
  | cons e es ih =>
    have first := after e (by simp)
    have rest := ih fun q hq => after q (List.mem_cons_of_mem _ hq)
    cases order with
    | sorted =>
      change Datum.order k e.1 = .gt at first
      simp only [insert, Datum.insertSorted, first, List.cons_append] at rest ⊢
      rw [rest]
    | arrival =>
      change Datum.order k e.1 ≠ .eq at first
      simp only [insert, Datum.insertArrival, if_neg first, List.cons_append] at rest ⊢
      rw [rest]

/-- What holds of an entry and of all others holds of all when the entry is bound. -/
theorem MapOrder.forall_insert (order : MapOrder) {P Q : Datum → Prop} {k v : Datum}
    {es : List (Datum × Datum)} (key : P k) (value : Q v) (each : ∀ e ∈ es, P e.1 ∧ Q e.2) :
    ∀ e ∈ order.insert k v es, P e.1 ∧ Q e.2 := by
  induction es with
  | nil =>
    have alone : order.insert k v [] = [(k, v)] := by cases order <;> rfl
    rw [alone]
    exact List.forall_mem_singleton.2 ⟨key, value⟩
  | cons e es ih =>
    obtain ⟨first, rest⟩ := List.forall_mem_cons.1 each
    have replaced : ∀ e' ∈ (e.1, v) :: es, P e'.1 ∧ Q e'.2 :=
      List.forall_mem_cons.2 ⟨⟨first.1, value⟩, rest⟩
    have behind : ∀ e' ∈ e :: order.insert k v es, P e'.1 ∧ Q e'.2 :=
      List.forall_mem_cons.2 ⟨first, ih rest⟩
    cases order with
    | sorted =>
      simp only [insert, Datum.insertSorted] at behind ⊢
      split
      · exact List.forall_mem_cons.2 ⟨⟨key, value⟩, each⟩
      · exact replaced
      · exact behind
    | arrival =>
      simp only [insert, Datum.insertArrival] at behind ⊢
      split
      · exact replaced
      · exact behind

end MessagePack
