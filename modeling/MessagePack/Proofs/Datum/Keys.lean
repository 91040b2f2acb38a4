import Mathlib.Data.List.Induction
import MessagePack.Proofs.Datum.Order
import MessagePack.Proofs.Record.Typing
/-!
# Maps by key

On data of one type the comparison of mapping keys is that of an order: it is transitive, and equal
keys compare alike with every other.  On data of several types it is not, since data of different
forms count as equal.

So a map whose keys are of one type is what its entries make of it, each binding its key anew: it
holds one entry for every key and in it the value that came last (`MapOrder.LastWins`).

Main statements: `Catalog.OfType.chained`, `MapOrder.lastWins_bindAll` and `MapOrder.perm_bindAll`.
-/

namespace MessagePack

/-! ## 1. Comparisons that are chained

Three comparisons, of `a` with `b`, of `b` with `c` and of `a` with `c`, are chained if they fit
together.  That is transitivity, taken apart so that it goes through comparing in steps: the second
step is looked at only where the first finds both sides equal. -/

/-- A comparison of `a` with `b`, one of `b` with `c` and one of `a` with `c` fit together as those
of an order do. -/
structure Chained (ab bc ac : Ordering) : Prop where
  left : ab = .eq → ac = bc
  right : bc = .eq → ac = ab
  same : ab = bc → ac = ab

namespace Chained

/-- What compares everything as equal is chained. -/
theorem all_eq : Chained .eq .eq .eq := ⟨fun _ => rfl, fun _ => rfl, fun _ => rfl⟩

/-- The comparison of a linear order is. -/
theorem of_compare {α : Type} [Ord α] [Std.TransOrd α] (a b c : α) :
    Chained (compare a b) (compare b c) (compare a c) where
  left equal := Std.TransCmp.congr_left equal
  right equal := (Std.TransCmp.congr_right equal).symm
  same same := by
    cases first : compare a b with
    | lt => exact Std.TransCmp.lt_trans first (same ▸ first)
    | eq => exact Std.TransCmp.eq_trans first (same ▸ first)
    | gt => exact Std.TransCmp.gt_trans first (same ▸ first)

/-- What is compared in two steps, the second deciding where the first does not. -/
theorem then' {ab bc ac ab' bc' ac' : Ordering} (first : Chained ab bc ac)
    (second : ab = .eq → bc = .eq → Chained ab' bc' ac') :
    Chained (ab.then ab') (bc.then bc') (ac.then ac') := by
  obtain ⟨left, right, same⟩ := first
  -- where a comparison decides, the steps behind it are not looked at
  cases ab with
  | eq =>
    cases left rfl
    cases bc with
    | eq => exact second rfl rfl
    | lt | gt => exact ⟨fun _ => rfl, nofun, fun e => e.symm⟩
  | lt =>
    cases bc with
    | eq =>
      cases right rfl
      exact ⟨nofun, fun _ => rfl, fun _ => rfl⟩
    | lt =>
      cases same rfl
      exact ⟨nofun, nofun, fun _ => rfl⟩
    | gt => exact ⟨nofun, nofun, nofun⟩
  | gt =>
    cases bc with
    | eq =>
      cases right rfl
      exact ⟨nofun, fun _ => rfl, fun _ => rfl⟩
    | lt => exact ⟨nofun, nofun, nofun⟩
    | gt =>
      cases same rfl
      exact ⟨nofun, nofun, fun _ => rfl⟩

/-- **Lists are compared so by their first difference**, if what stands at one place in them is. -/
theorem compareLex {α : Type} {cmp : α → α → Ordering} {as bs cs : List α}
    (each : ∀ (i : Nat) a b c, as[i]? = some a → bs[i]? = some b → cs[i]? = some c →
      Chained (cmp a b) (cmp b c) (cmp a c)) :
    Chained (as.compareLex cmp bs) (bs.compareLex cmp cs) (as.compareLex cmp cs) := by
  induction as generalizing bs cs with
  | nil =>
    cases bs with
    | nil => exact ⟨fun _ => rfl, fun e => e, fun e => e.symm⟩
    | cons b bs =>
      cases cs with
      | nil => exact ⟨nofun, nofun, nofun⟩
      | cons c cs => exact ⟨nofun, fun _ => rfl, fun _ => rfl⟩
  | cons a as ih =>
    cases bs with
    | nil =>
      cases cs with
      | nil => exact ⟨nofun, fun _ => rfl, nofun⟩
      | cons c cs => exact ⟨nofun, nofun, nofun⟩
    | cons b bs =>
      cases cs with
      | nil => exact ⟨fun _ => rfl, nofun, fun e => e.symm⟩
      | cons c cs =>
        rw [List.compareLex_cons_cons, List.compareLex_cons_cons, List.compareLex_cons_cons]
        have first := each 0 a b c rfl rfl rfl
        exact first.then' fun _ _ => ih fun i x y z hx hy hz => each (i + 1) x y z hx hy hz

end Chained

/-! ## 2. Data of one type -/

namespace Datum

/-- Bytes are compared one by one, -/
theorem orderBytes_eq (as bs : List UInt8) :
    orderBytes as bs = as.compareLex (fun a b => compare a.toNat b.toNat) bs := by
  fun_induction orderBytes as bs with
  | case1 | case2 | case3 => rfl
  | case4 a as b bs ih => rw [List.compareLex_cons_cons, ih]

/-- data one by one, -/
theorem orderEach_eq (as bs : List Datum) : orderEach as bs = as.compareLex order bs := by
  induction as generalizing bs with
  | nil => cases bs <;> rfl
  | cons a as ih =>
    cases bs with
    | nil => rfl
    | cons b bs => rw [orderEach, List.compareLex_cons_cons, ih]

/-- The comparison of two entries, by key and then by value. -/
def orderEntry (e e' : Datum × Datum) : Ordering := (order e.1 e'.1).then (order e.2 e'.2)

/-- and entries first by their keys and then by their values. -/
theorem orderEntries_eq (as bs : List (Datum × Datum)) :
    orderEntries as bs = as.compareLex orderEntry bs := by
  induction as generalizing bs with
  | nil => cases bs <;> rfl
  | cons a as ih =>
    cases bs with
    | nil => rfl
    | cons b bs =>
      rw [orderEntries, List.compareLex_cons_cons, ih]
      rfl

/-- Bytes are compared as an order. -/
theorem chained_orderBytes (as bs cs : List UInt8) :
    Chained (orderBytes as bs) (orderBytes bs cs) (orderBytes as cs) := by
  rw [orderBytes_eq, orderBytes_eq, orderBytes_eq]
  exact .compareLex fun _ _ _ _ _ _ _ => .of_compare _ _ _

/-- So are lists of data, if what stands at one place of them is. -/
theorem chained_orderEach {as bs cs : List Datum}
    (each : ∀ (i : Nat) a b c, as[i]? = some a → bs[i]? = some b → cs[i]? = some c →
      Chained (order a b) (order b c) (order a c)) :
    Chained (orderEach as bs) (orderEach bs cs) (orderEach as cs) := by
  rw [orderEach_eq, orderEach_eq, orderEach_eq]
  exact .compareLex each

/-- And so are entries, if keys and values are. -/
theorem chained_orderEntries {as bs cs : List (Datum × Datum)}
    (keys : ∀ a ∈ as, ∀ b ∈ bs, ∀ c ∈ cs,
      Chained (order a.1 b.1) (order b.1 c.1) (order a.1 c.1))
    (values : ∀ a ∈ as, ∀ b ∈ bs, ∀ c ∈ cs,
      Chained (order a.2 b.2) (order b.2 c.2) (order a.2 c.2)) :
    Chained (orderEntries as bs) (orderEntries bs cs) (orderEntries as cs) := by
  rw [orderEntries_eq, orderEntries_eq, orderEntries_eq]
  refine .compareLex fun i a b c ha hb hc => ?_
  have ha := List.mem_of_getElem? ha
  have hb := List.mem_of_getElem? hb
  have hc := List.mem_of_getElem? hc
  exact (keys a ha b hb c hc).then' fun _ _ => values a ha b hb c hc

end Datum

namespace Catalog

variable {c : Catalog}

/-- **On data of one type the comparison is that of an order.** -/
theorem OfType.chained {t : Ty} {x y z : Datum} (hx : c.OfType t x) (hy : c.OfType t y)
    (hz : c.OfType t z) : Chained (x.order y) (y.order z) (x.order z) := by
  induction hx generalizing y z with
  | bool | text | clockTime =>
    cases hy
    cases hz
    exact .of_compare _ _ _
  | bytes =>
    cases hy
    cases hz
    exact Datum.chained_orderBytes _ _ _
  | dynamic =>
    cases hy
    cases hz
    exact .all_eq
  | timestamp =>
    cases hy
    cases hz
    exact (Chained.of_compare _ _ _).then' fun _ _ => .of_compare _ _ _
  | whole fits =>
    -- a number of a type that has a range is no float
    cases hy with
    | single | double => cases fits
    | whole =>
      cases hz with
      | single | double => cases fits
      | whole => exact .of_compare _ _ _
  | single =>
    cases hy with
    | whole fits => cases fits
    | single =>
      cases hz with
      | whole fits => cases fits
      | single => exact .all_eq
  | double =>
    cases hy with
    | whole fits => cases fits
    | double =>
      cases hz with
      | whole fits => cases fits
      | double => exact .all_eq
  | list _ ih =>
    cases hy with | list eachY => cases hz with | list eachZ =>
    refine Datum.chained_orderEach fun i x y z hx hy hz => ?_
    exact ih x (List.mem_of_getElem? hx) (eachY y (List.mem_of_getElem? hy))
      (eachZ z (List.mem_of_getElem? hz))
  | array _ ih =>
    obtain ⟨ys, rfl, eachY⟩ := hy.exists_elements
    obtain ⟨zs, rfl, eachZ⟩ := hz.exists_elements
    refine Datum.chained_orderEach fun i x y z hx hy hz => ?_
    exact ih x (List.mem_of_getElem? hx) (eachY y (List.mem_of_getElem? hy))
      (eachZ z (List.mem_of_getElem? hz))
  | @tuple parts _ ih =>
    -- the parts of a tuple are compared place by place, and at one place the types agree
    obtain ⟨ys, rfl, eachY⟩ := OfType.tuple_iff.1 hy
    obtain ⟨zs, rfl, eachZ⟩ := OfType.tuple_iff.1 hz
    refine Datum.chained_orderEach fun i x y z hx hy hz => ?_
    rw [List.getElem?_map, Option.map_eq_some_iff] at hx
    obtain ⟨p, here, rfl⟩ := hx
    have type : (parts.map (·.1))[i]? = some p.1 := by
      rw [List.getElem?_map, here]
      rfl
    exact ih p (List.mem_of_getElem? here) (OfType.of_forall₂ eachY type hy)
      (OfType.of_forall₂ eachZ type hz)
  | absent =>
    cases hy with
    | absent => exact ⟨fun _ => rfl, fun e => e, fun e => e.symm⟩
    | present =>
      cases hz with
      | absent => exact ⟨nofun, nofun, nofun⟩
      | present => exact ⟨nofun, fun _ => rfl, fun _ => rfl⟩
  | present _ ih =>
    cases hy with
    | absent =>
      cases hz with
      | absent => exact ⟨nofun, fun _ => rfl, nofun⟩
      | present => exact ⟨nofun, nofun, nofun⟩
    | present hy =>
      cases hz with
      | absent => exact ⟨fun _ => rfl, nofun, fun e => e.symm⟩
      | present hz => exact ih hy hz
  | box _ ih => exact ih hy.unbox hz.unbox
  | map _ _ keys values =>
    cases hy with | map keysY valuesY => cases hz with | map keysZ valuesZ =>
    exact Datum.chained_orderEntries
      (fun x hx y hy z hz => keys x hx (keysY y hy) (keysZ z hz))
      fun x hx y hy z hz => values x hx (valuesY y hy) (valuesZ z hz)
  | @record id fs length _ ih =>
    cases hy with | record _ eachY => cases hz with | record _ eachZ =>
    refine Datum.chained_orderEach fun i x y z hx hy hz => ?_
    -- records are compared field by field, as they are declared
    obtain ⟨lt, -⟩ := List.getElem?_eq_some_iff.1 hx
    rw [length] at lt
    have field : c.field? id i = some ((c.decl id).fields[i]) := List.getElem?_eq_getElem lt
    exact ih i _ x field hx (eachY i _ y field hy) (eachZ i _ z field hz)

end Catalog

/-! ## 3. Maps

A map keeps one entry for each key, in ascending order or as they came first.  A key that is bound
again keeps its place and gets the new value.  `MapOrder.LastWins` says what is left after any
number of entries, for either kind of map. -/

namespace Datum

/-- Among these keys the comparison is that of an order. -/
def Comparable (P : Datum → Prop) : Prop :=
  ∀ a b c, P a → P b → P c → Chained (order a b) (order b c) (order a c)

/-- A key compares as equal to itself, -/
theorem order_self (k : Datum) : order k k = .eq := by
  have turned := order_swap k k
  cases e : order k k with
  | eq => rfl
  | lt | gt =>
    rw [e] at turned
    cases turned

/-- and two keys do both ways or neither. -/
theorem order_eq_comm {k l : Datum} : order k l = .eq ↔ order l k = .eq := by
  rw [order_swap k l, Ordering.swap_eq_eq]

end Datum

/-- **The data of one type are ordered.** -/
theorem Catalog.comparable_ofType (c : Catalog) (t : Ty) : Datum.Comparable (c.OfType t) :=
  fun _ _ _ ha hb hc => ha.chained hb hc

namespace MapOrder

open Datum

variable {o : MapOrder} {P : Datum → Prop} {k l v w : Datum} {e x : Datum × Datum}
  {es m front back : List (Datum × Datum)}

/-- The entries of a map stand in its order, and no two of them have equal keys. -/
def Ordered (o : MapOrder) (m : List (Datum × Datum)) : Prop :=
  (m.map (·.1)).Pairwise fun a b => o.IsAfter b a

/-- A key that comes after another is not equal to it. -/
theorem IsAfter.ne_eq (after : o.IsAfter k l) : order k l ≠ .eq := by
  cases o with
  | sorted =>
    rw [show order k l = .gt from after]
    nofun
  | arrival => exact after

/-- An equal key at the front gets the new value, -/
theorem insert_cons_eq (equal : order k l = .eq) :
    o.insert k v ((l, w) :: m) = (l, v) :: m := by
  cases o with
  | sorted => simp only [insert, insertSorted, equal]
  | arrival => simp only [insert, insertArrival, if_pos equal]

/-- and one that is to stand further back is passed by. -/
theorem insert_cons_after (after : o.IsAfter k l) :
    o.insert k v ((l, w) :: m) = (l, w) :: o.insert k v m := by
  cases o with
  | sorted =>
    change order k l = .gt at after
    simp only [insert, insertSorted, after]
  | arrival =>
    change order k l ≠ .eq at after
    simp only [insert, insertArrival, if_neg after]

/-- A key is equal to another or comes after it, or it has to go before it. -/
theorem eq_or_isAfter (o : MapOrder) (k l : Datum) :
    order k l = .eq ∨ o.IsAfter k l ∨ o = .sorted ∧ order k l = .lt := by
  cases o with
  | sorted =>
    cases compared : order k l with
    | eq => exact .inl rfl
    | gt => exact .inr (.inl compared)
    | lt => exact .inr (.inr ⟨rfl, rfl⟩)
  | arrival => exact (Classical.em (order k l = .eq)).imp_right .inl

/-- **Binding a key** replaces the value of the entry that has an equal one, or makes a new entry
at the key's place. -/
theorem insert_cases (comparable : Comparable P) (ordered : o.Ordered m) (key : P k)
    (keys : ∀ e ∈ m, P e.1) (v : Datum) :
    (∃ front l w back, m = front ++ (l, w) :: back ∧ order k l = .eq ∧
      o.insert k v m = front ++ (l, v) :: back) ∨
    ∃ front back, m = front ++ back ∧ o.insert k v m = front ++ (k, v) :: back ∧
      (∀ e ∈ front, o.IsAfter k e.1) ∧ ∀ e ∈ back, o.IsAfter e.1 k := by
  -- either an equal key is found, or the place where the new one belongs
  induction m with
  | nil =>
    exact .inr ⟨[], [], rfl, by cases o <;> rfl, List.forall_mem_nil _, List.forall_mem_nil _⟩
  | cons first m ih =>
    obtain ⟨l, w⟩ := first
    obtain ⟨afterFirst, rest⟩ := List.pairwise_cons.1 ordered
    rcases o.eq_or_isAfter k l with equal | after | ⟨rfl, before⟩
    · exact .inl ⟨[], l, w, m, rfl, equal, insert_cons_eq equal⟩
    · rcases ih rest fun e mem => keys e (List.mem_cons_of_mem _ mem) with
        ⟨front, l', w', back, rfl, equal, made⟩ | ⟨front, back, rfl, made, fronts, backs⟩
      · refine .inl ⟨(l, w) :: front, l', w', back, rfl, equal, ?_⟩
        rw [insert_cons_after after, made, List.cons_append]
      · refine .inr ⟨(l, w) :: front, back, rfl, ?_, ?_, backs⟩
        · rw [insert_cons_after after, made, List.cons_append]
        · exact List.forall_mem_cons.2 ⟨after, fronts⟩
    · -- the key goes before all others: they come after the first, and that after the key
      have first : order l k = .gt := by rw [order_swap k l, before]; rfl
      refine .inr ⟨[], (l, w) :: m, rfl, ?_, List.forall_mem_nil _,
        List.forall_mem_cons.2 ⟨first, ?_⟩⟩
      · simp only [insert, insertSorted, before, List.nil_append]
      · intro e mem
        have behind : order e.1 l = .gt := afterFirst e.1 (List.mem_map_of_mem mem)
        have chained := comparable e.1 l k (keys e (List.mem_cons_of_mem _ mem))
          (keys (l, w) (List.mem_cons_self ..)) key
        exact (chained.same (behind.trans first.symm)).trans behind

/-- The map that entries make when each binds its key anew. -/
def bindAll (o : MapOrder) (es : List (Datum × Datum)) : List (Datum × Datum) :=
  es.foldl (fun m e => o.insert e.1 e.2 m) []

/-- In the map `m` every key of the entries `es` is bound once, to the value that came last with an
equal key. -/
structure LastWins (o : MapOrder) (es m : List (Datum × Datum)) : Prop where
  ordered : o.Ordered m
  keys : ∀ e ∈ m, ∃ e' ∈ es, e'.1 = e.1
  bound : ∀ e ∈ es, ∃ e' ∈ m, order e.1 e'.1 = .eq
  last : ∀ e ∈ m, ∃ before k after, es = before ++ (k, e.2) :: after ∧ order k e.1 = .eq ∧
    ∀ e' ∈ after, order e'.1 e.1 ≠ .eq

/-- One more entry that leaves the value of another key alone. -/
theorem LastWins.last_append (wins : o.LastWins es m) (mem : e ∈ m) (ne : order k e.1 ≠ .eq) :
    ∃ before k' after, es ++ [(k, v)] = before ++ (k', e.2) :: after ∧ order k' e.1 = .eq ∧
      ∀ e' ∈ after, order e'.1 e.1 ≠ .eq := by
  obtain ⟨before, k', after, rfl, equal, none⟩ := wins.last e mem
  refine ⟨before, k', after ++ [(k, v)], by simp, equal, ?_⟩
  rintro e' mem
  rcases List.mem_append.1 mem with mem | mem
  · exact none e' mem
  · obtain rfl := List.mem_singleton.1 mem
    exact ne

/-- A member of a list is the one in the middle or one of the others. -/
theorem mem_middle : e ∈ front ++ x :: back ↔ e = x ∨ e ∈ front ++ back := by
  rw [List.perm_middle.mem_iff, List.mem_cons]

/-- No other entry of a map has an equal key. -/
theorem Ordered.apart (ordered : o.Ordered (front ++ e :: back)) :
    ∀ e' ∈ front ++ back, order e.1 e'.1 ≠ .eq := by
  unfold Ordered at ordered
  rw [List.map_append, List.map_cons] at ordered
  obtain ⟨-, behind, across⟩ := List.pairwise_append.1 ordered
  intro e' mem
  rcases List.mem_append.1 mem with mem | mem
  · exact (across _ (List.mem_map_of_mem mem) _ (List.mem_cons_self ..)).ne_eq
  · have after := (List.pairwise_cons.1 behind).1 _ (List.mem_map_of_mem mem)
    exact fun equal => after.ne_eq (order_eq_comm.1 equal)

/-- The map after one more entry, if that binds a key equal to its own and no other. -/
theorem LastWins.bind (wins : o.LastWins es m) (ordered : o.Ordered (front ++ (l, v) :: back))
    (equal : order k l = .eq) (key : ∃ e ∈ es ++ [(k, v)], e.1 = l)
    (others : ∀ e ∈ front ++ back, e ∈ m ∧ order k e.1 ≠ .eq)
    (all : ∀ e ∈ m, e ∈ front ++ back ∨ e.1 = l) :
    o.LastWins (es ++ [(k, v)]) (front ++ (l, v) :: back) := by
  have here : (l, v) ∈ front ++ (l, v) :: back := by simp
  refine ⟨ordered, fun e mem => ?_, fun e mem => ?_, fun e mem => ?_⟩
  · rcases mem_middle.1 mem with rfl | mem
    · exact key
    · obtain ⟨e', mem', same⟩ := wins.keys e (others e mem).1
      exact ⟨e', List.mem_append_left _ mem', same⟩
  · rcases List.mem_append.1 mem with mem | mem
    · obtain ⟨e', mem', same⟩ := wins.bound e mem
      rcases all e' mem' with kept | rfl
      · exact ⟨e', mem_middle.2 (.inr kept), same⟩
      · exact ⟨(e'.1, v), here, same⟩
    · obtain rfl := List.mem_singleton.1 mem
      exact ⟨(l, v), here, equal⟩
  · rcases mem_middle.1 mem with rfl | mem
    · exact ⟨es, k, [], rfl, equal, List.forall_mem_nil _⟩
    · exact wins.last_append (others e mem).1 (others e mem).2

/-- A key that stands in a map before some keys and after the others is equal to none of them. -/
theorem ne_of_between (fronts : ∀ e ∈ front, o.IsAfter k e.1)
    (backs : ∀ e ∈ back, o.IsAfter e.1 k) :
    ∀ e ∈ front ++ back, order k e.1 ≠ .eq := by
  intro e mem
  rcases List.mem_append.1 mem with mem | mem
  · exact (fronts e mem).ne_eq
  · exact fun equal => (backs e mem).ne_eq (order_eq_comm.1 equal)

/-- **One more entry wins over those before it.** -/
theorem LastWins.insert (comparable : Comparable P) (each : ∀ e ∈ es, P e.1) (key : P k)
    (wins : o.LastWins es m) : o.LastWins (es ++ [(k, v)]) (o.insert k v m) := by
  have keys : ∀ e ∈ m, P e.1 := by
    intro e mem
    obtain ⟨e', mem', same⟩ := wins.keys e mem
    exact same ▸ each e' mem'
  -- a key that was bound before keeps its own spelling and loses its value
  rcases insert_cases comparable wins.ordered key keys v with
    ⟨front, l, w, back, rfl, equal, made⟩ | ⟨front, back, rfl, made, fronts, backs⟩
  · have here : (l, w) ∈ front ++ (l, w) :: back := by simp
    have ordered : o.Ordered (front ++ (l, v) :: back) := by
      simpa only [Ordered, List.map_append, List.map_cons] using wins.ordered
    rw [made]
    refine wins.bind ordered equal ?_ (fun e mem => ⟨mem_middle.2 (.inr mem), ?_⟩) fun e mem => ?_
    · obtain ⟨e', mem', same⟩ := wins.keys _ here
      exact ⟨e', List.mem_append_left _ mem', same⟩
    · -- the key is equal to the one that stands there, and no other key in the map is
      have chained := comparable k l e.1 key (keys _ here) (keys e (mem_middle.2 (.inr mem)))
      rw [chained.left equal]
      exact wins.ordered.apart e mem
    · rcases mem_middle.1 mem with rfl | mem
      · exact .inr rfl
      · exact .inl mem
  · rw [made]
    refine wins.bind ?_ (order_self k) ⟨(k, v), by simp, rfl⟩ (fun e mem => ⟨mem, ?_⟩)
      fun e mem => .inl mem
    · have ordered := wins.ordered
      unfold Ordered at ordered ⊢
      rw [List.map_append] at ordered ⊢
      obtain ⟨first, second, across⟩ := List.pairwise_append.1 ordered
      refine List.pairwise_append.2 ⟨first, List.pairwise_cons.2 ⟨?_, second⟩, ?_⟩
      · exact List.forall_mem_map.2 backs
      · refine List.forall_mem_map.2 fun e mem => List.forall_mem_cons.2 ⟨fronts e mem, ?_⟩
        exact across e.1 (List.mem_map_of_mem mem)
    · exact ne_of_between fronts backs e mem

/-- The last entry is put in last. -/
theorem bindAll_concat (o : MapOrder) (es : List (Datum × Datum)) (e : Datum × Datum) :
    o.bindAll (es ++ [e]) = o.insert e.1 e.2 (o.bindAll es) := by
  rw [bindAll, List.foldl_append]
  rfl

/-- **What entries make is the map in which the last one wins.** -/
theorem lastWins_bindAll (comparable : Comparable P) (each : ∀ e ∈ es, P e.1) :
    o.LastWins es (o.bindAll es) := by
  induction es using List.reverseRecOn with
  | nil =>
    exact ⟨.nil, List.forall_mem_nil _, List.forall_mem_nil _, List.forall_mem_nil _⟩
  | append_singleton es e ih =>
    have before := ih fun e' mem => each e' (List.mem_append_left _ mem)
    rw [bindAll_concat]
    exact before.insert comparable (fun e' mem => each e' (List.mem_append_left _ mem))
      (each e (by simp))

/-! ## 4. Maps in either order

Entries with different keys can be put in in either order.  In a sorted map that gives the same
list, in an unsorted one the same entries in another order. -/

variable {o' : MapOrder} {m' : List (Datum × Datum)}

/-- Maps with the same entries still have the same entries when a key is bound in both, though they
may hold them in different orders. -/
theorem perm_insert (comparable : Comparable P) (ordered : o.Ordered m) (ordered' : o'.Ordered m')
    (same : m.Perm m') (key : P k) (keys : ∀ e ∈ m, P e.1) (v : Datum) :
    (o.insert k v m).Perm (o'.insert k v m') := by
  have keys' : ∀ e ∈ m', P e.1 := fun e mem => keys e (same.mem_iff.2 mem)
  rcases insert_cases comparable ordered key keys v with
    ⟨front, l, w, back, rfl, equal, made⟩ | ⟨front, back, rfl, made, fronts, backs⟩
  · have here : (l, w) ∈ front ++ (l, w) :: back := by simp
    rcases insert_cases comparable ordered' key keys' v with
      ⟨front', l', w', back', rfl, equal', made'⟩ | ⟨front', back', rfl, made', fronts', backs'⟩
    · -- the entries that are replaced are one and the same, as no other has an equal key
      have here' : (l', w') ∈ front ++ (l, w) :: back := same.mem_iff.2 (by simp)
      have alike : order l l' = .eq :=
        ((comparable k l l' key (keys _ here) (keys _ here')).left equal).symm.trans equal'
      obtain ⟨rfl, rfl⟩ : l' = l ∧ w' = w := by
        rcases mem_middle.1 here' with one | other
        · exact Prod.mk.inj one
        · exact absurd alike (ordered.apart _ other)
      have others : (front ++ back).Perm (front' ++ back') :=
        ((List.perm_middle.symm.trans same).trans List.perm_middle).cons_inv
      rw [made, made']
      exact (List.perm_middle.trans (others.cons _)).trans List.perm_middle.symm
    · exact absurd equal (ne_of_between fronts' backs' _ (same.mem_iff.1 here))
  · rcases insert_cases comparable ordered' key keys' v with
      ⟨front', l', w', back', rfl, equal', made'⟩ | ⟨front', back', rfl, made', fronts', backs'⟩
    · exact absurd equal' (ne_of_between fronts backs (l', w') (same.mem_iff.2 (by simp)))
    · rw [made, made']
      exact (List.perm_middle.trans (same.cons _)).trans List.perm_middle.symm

/-- **Entries make the same map in either order**, up to the order in which it holds them. -/
theorem perm_bindAll (comparable : Comparable P) (each : ∀ e ∈ es, P e.1) :
    (o.bindAll es).Perm (o'.bindAll es) := by
  induction es using List.reverseRecOn with
  | nil => exact .nil
  | append_singleton es e ih =>
    have before : ∀ e' ∈ es, P e'.1 := fun e' mem => each e' (List.mem_append_left _ mem)
    have wins : o.LastWins es (o.bindAll es) := lastWins_bindAll comparable before
    have wins' : o'.LastWins es (o'.bindAll es) := lastWins_bindAll comparable before
    rw [bindAll_concat, bindAll_concat]
    refine perm_insert comparable wins.ordered wins'.ordered (ih before) (each e (by simp)) ?_ e.2
    intro x mem
    obtain ⟨e', mem', same⟩ := wins.keys x mem
    exact same ▸ before e' mem'

end MapOrder

end MessagePack
