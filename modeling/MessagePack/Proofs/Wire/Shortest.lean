import MessagePack.Proofs.Encode.Runs
import MessagePack.Proofs.Wire.Number
/-!
# Shortest forms

Any header of a family may announce a length that a shorter one could carry, and any width may hold
a number that a narrower one could.  What is put is never longer.

`Family.Announces` says what a header announces, whichever of its family it is.  Main statements:
`Family.Announces.shortest` for lengths, `Script.uint_shortest` and `Script.int_shortest` for whole
numbers.
-/

namespace MessagePack

/-! ## 1. Lengths -/

namespace Family

/-- The header is one of the family and announces this length with the bytes behind it. -/
inductive Announces (f : Family) : Header → List UInt8 → Nat → Prop
  | fix {h : Header} {n : Nat} (carries : f.fix? n = some h) : Announces f h [] n
  | wide {w : Width} {size : List UInt8} (assigned : w ∈ f.widths)
      (width : size.length = w.bytes) : Announces f (f.wide w) size (ofBigEndian size)

variable {f : Family} {h : Header} {body size payload : List UInt8} {n : Nat}

/-- A width that the format does not assign to the family has no byte of its own. -/
theorem assigned_of_stands {w : Width} (stands : (f.wide w).Stands) : w ∈ f.widths := by
  cases f <;> cases w <;> first | decide | exact absurd stands (by decide)

theorem fix?_extLength : ∀ p : Fin 5, Family.ext.fix? (Header.extLength p) = some (.fixExt p) := by
  decide

/-- So the first width that fits is the narrowest. -/
theorem widths_ascend (f : Family) : f.widths.Pairwise fun v w => v.bytes ≤ w.bytes := by
  cases f <;> decide

/-- **No header that announces a length is shorter than the one that is picked.** -/
theorem Announces.shortest (announces : f.Announces h size n) :
    ∃ h' size', f.header? n = some (h', size') ∧ size'.length ≤ size.length := by
  unfold header?
  cases carries : f.fix? n with
  | some g => exact ⟨g, [], rfl, Nat.zero_le _⟩
  | none =>
    cases announces with
    | fix carries' => cases carries.symm.trans carries'
    | @wide w _ assigned width =>
      have fits : ofBigEndian size < w.span := Width.ofBigEndian_lt width
      obtain ⟨v, found⟩ : ∃ v, f.widths.find? (fun w => ofBigEndian size < w.span) = some v :=
        Option.isSome_iff_exists.1 (List.find?_isSome.2 ⟨w, assigned, by simpa using fits⟩)
      refine ⟨_, _, by rw [found]; rfl, ?_⟩
      rw [length_bigEndian, width]
      -- a width in front of the one found is too narrow, and `w` is not
      obtain ⟨-, before, behind, widths, narrow⟩ := List.find?_eq_some_iff_append.1 found
      have ascend := f.widths_ascend
      rw [widths, List.mem_append, List.mem_cons] at assigned
      rw [widths, List.pairwise_append, List.pairwise_cons] at ascend
      rcases assigned with early | rfl | late
      · have refused := narrow w early
        simp [fits] at refused
      · exact Nat.le_refl _
      · exact ascend.2.1.1 w late

open Header

/-- Whatever opens an array announces it. -/
theorem announces_array (stands : h.Stands) (array : h.isArray = true) (own : h.Owes body n) :
    Family.array.Announces h body n := by
  cases h with
  | fixArray k =>
    obtain ⟨rfl, rfl⟩ := own
    exact .fix (dif_pos k.isLt)
  | array w =>
    obtain ⟨width, rfl⟩ := own
    exact .wide (assigned_of_stands (f := .array) stands) width
  | _ => cases array

/-- And a map. -/
theorem announces_map (stands : h.Stands) (map : h.isMap = true) (own : h.Owes body (2 * n)) :
    Family.map.Announces h body n := by
  cases h with
  | fixMap k =>
    obtain ⟨rfl, count⟩ := own
    obtain rfl : n = k := by omega
    exact .fix (dif_pos k.isLt)
  | map w =>
    obtain ⟨width, count⟩ := own
    obtain rfl : n = ofBigEndian body := by omega
    exact .wide (assigned_of_stands (f := .map) stands) width
  | _ => cases map

/-- Of a text what is before the payload does. -/
theorem announces_text (stands : h.Stands) (text : h.isText = true) (holds : h.Holds body payload) :
    ∃ size, body = size ++ payload ∧ Family.text.Announces h size payload.length := by
  cases holds with
  | @fixText k _ length =>
    refine ⟨[], rfl, .fix ?_⟩
    rw [length]
    exact dif_pos k.isLt
  | @text w size _ width length =>
    refine ⟨size, rfl, ?_⟩
    rw [length]
    exact .wide (assigned_of_stands (f := .text) stands) width
  | bin => cases text

/-- Of a binary too. -/
theorem announces_bin (stands : h.Stands) (bin : h.isBin = true) (holds : h.Holds body payload) :
    ∃ size, body = size ++ payload ∧ Family.bin.Announces h size payload.length := by
  cases holds with
  | @bin w size _ width length =>
    refine ⟨size, rfl, ?_⟩
    rw [length]
    exact .wide (assigned_of_stands (f := .bin) stands) width
  | fixText | text => cases bin

/-- Of an extension what is before the tag. -/
theorem announces_ext {tag : Int8} (stands : h.Stands) (holds : h.HoldsExt body tag payload) :
    ∃ size, body = size ++ tag.toUInt8 :: payload ∧
      Family.ext.Announces h size payload.length := by
  cases holds with
  | @fixExt p _ _ length =>
    refine ⟨[], rfl, .fix ?_⟩
    rw [length]
    exact fix?_extLength p
  | @ext w size _ _ width length =>
    refine ⟨size, rfl, ?_⟩
    rw [length]
    exact .wide (assigned_of_stands (f := .ext) stands) width

end Family

/-! ## 2. Whole numbers -/

theorem Width.bytes_pos (w : Width) : 0 < w.bytes := by cases w <;> decide

/-- A width that holds what another one does not has twice as many bytes. -/
theorem Width.two_mul_bytes_le {v w : Width} {n : Nat} (large : v.span ≤ n) (fits : n < w.span) :
    2 * v.bytes ≤ w.bytes := by
  have wider : v.span < w.span := Nat.lt_of_le_of_lt large fits
  cases v <;> cases w <;> first | decide | exact absurd wider (by decide)

namespace Script

theorem puts_headed_self (h : Header) (body : List UInt8) :
    (headed h body).Puts (h.toByte :: body) := rfl

variable {w : Width}

/-- **A number from zero up takes no more bytes than any width that holds it.** -/
theorem uint_shortest {n : Nat} (fits : n < w.span) :
    ∃ bs, (uint n).Puts bs ∧ bs.length ≤ 1 + w.bytes := by
  have some' := w.bytes_pos
  unfold uint
  split
  · exact ⟨_, rfl, Nat.le_add_right 1 _⟩
  · split
    · exact ⟨_, puts_headed_self .., Nat.add_le_add_left some' 1⟩
    · rename_i large
      have two : 2 ≤ w.bytes := Width.two_mul_bytes_le (v := .w8) (Nat.le_of_not_lt large) fits
      split
      · exact ⟨_, puts_headed_self .., Nat.add_le_add_left two 1⟩
      · rename_i large
        have four : 4 ≤ w.bytes := Width.two_mul_bytes_le (v := .w16) (Nat.le_of_not_lt large) fits
        split
        · exact ⟨_, puts_headed_self .., Nat.add_le_add_left four 1⟩
        · rename_i large
          have eight : 8 ≤ w.bytes :=
            Width.two_mul_bytes_le (v := .w32) (Nat.le_of_not_lt large) fits
          exact ⟨_, puts_headed_self .., Nat.add_le_add_left eight 1⟩

/-- **A whole number takes no more bytes than any width that holds it.** -/
theorem int_shortest {i : Int} (low : -(w.span : Int) ≤ 2 * i) (high : 2 * i < w.span) :
    ∃ bs, (int i).Puts bs ∧ bs.length ≤ 1 + w.bytes := by
  have some' := w.bytes_pos
  -- below zero, a width holds the number if it holds `-2 * i - 1` as a number from zero up
  have wider : ∀ {v : Width}, 2 * i < -(v.span : Int) → 2 * v.bytes ≤ w.bytes := by
    intro v below
    refine Width.two_mul_bytes_le (n := (-2 * i - 1).toNat) ?_ ?_ <;> omega
  unfold int
  split
  · exact uint_shortest (by omega)
  · split
    · exact ⟨_, rfl, Nat.le_add_right 1 _⟩
    · split
      · exact ⟨_, puts_headed_self .., Nat.add_le_add_left some' 1⟩
      · have two : 2 ≤ w.bytes := wider (v := .w8) (by simp only [Width.span]; omega)
        split
        · exact ⟨_, puts_headed_self .., Nat.add_le_add_left two 1⟩
        · have four : 4 ≤ w.bytes := wider (v := .w16) (by simp only [Width.span]; omega)
          split
          · exact ⟨_, puts_headed_self .., Nat.add_le_add_left four 1⟩
          · have eight : 8 ≤ w.bytes := wider (v := .w32) (by simp only [Width.span]; omega)
            exact ⟨_, puts_headed_self .., Nat.add_le_add_left eight 1⟩

/-! ## 3. What stands behind a length -/

variable {f : Family} {h : Header} {size payload : List UInt8}

/-- What stands behind a length that is announced takes no more bytes with the header that is
picked. -/
theorem headed_shortest {s : Script} {n : Nat} {bs inside : List UInt8}
    (announces : f.Announces h size n) (puts : s.Puts bs) (le : bs.length ≤ inside.length) :
    ∃ u, (header f n ++ s).Puts u ∧ u.length ≤ 1 + (size ++ inside).length := by
  obtain ⟨h', size', e, shorter⟩ := announces.shortest
  refine ⟨_, puts_append.2 ⟨_, bs, puts_header.2 ⟨h', size', e, rfl⟩, puts, rfl⟩, ?_⟩
  simp only [List.length_cons, List.length_append]
  omega

/-- A payload behind its length. -/
theorem announced_shortest (announces : f.Announces h size payload.length) :
    ∃ bs, (header f payload.length ++ put payload).Puts bs ∧
      bs.length ≤ 1 + (size ++ payload).length :=
  headed_shortest announces ((puts_put payload).2 rfl) (Nat.le_refl _)

/-- A tag and a payload behind its length. -/
theorem ext_shortest (announces : Family.ext.Announces h size payload.length) (tag : Int8) :
    ∃ bs, (ext tag payload).Puts bs ∧ bs.length ≤ 1 + (size ++ tag.toUInt8 :: payload).length := by
  obtain ⟨h', size', e, le⟩ := announces.shortest
  refine ⟨_, puts_ext.2 ⟨h', size', e, rfl⟩, ?_⟩
  simp only [List.length_cons, List.length_append]
  omega

end Script

namespace Header.Spells

variable {h : Header} {body : List UInt8}

/-- However an unsigned number was spelled, what is put for it is no longer. -/
theorem uint_shortest {u : UInt64} (spells : h.Spells body (.uint u)) :
    ∃ bs, (Script.uint u.toNat).Puts bs ∧ bs.length ≤ 1 + body.length := by
  cases spells with
  | posFix v =>
    have value : (UInt64.ofNat v).toNat = v :=
      UInt64.toNat_ofNat_of_lt' (Nat.lt_trans v.isLt (by decide))
    rw [value]
    unfold Script.uint
    rw [dif_pos v.isLt]
    exact ⟨_, rfl, Nat.le_refl 1⟩
  | @uint w body width =>
    have fits : ofBigEndian body < w.span := Width.ofBigEndian_lt width
    have value : (UInt64.ofNat (ofBigEndian body)).toNat = ofBigEndian body :=
      UInt64.toNat_ofNat_of_lt' (Nat.lt_of_lt_of_le fits w.span_le)
    rw [value, width]
    exact Script.uint_shortest fits

/-- However a signed number was spelled, what is put for it is no longer. -/
theorem int_shortest {i : Int64} (spells : h.Spells body (.int i)) :
    ∃ bs, (Script.int i.toInt).Puts bs ∧ bs.length ≤ 1 + body.length := by
  cases spells with
  | negFix k =>
    have value : (Int64.ofInt (negValue k)).toInt = negValue k :=
      Int64.toInt_ofInt_of_le (by simp only [negValue]; omega) (by simp only [negValue]; omega)
    rw [value]
    unfold Script.int
    rw [if_neg (by simp only [negValue]; omega), if_pos (by simp only [negValue]; omega)]
    exact ⟨_, rfl, Nat.le_refl 1⟩
  | @int w body width =>
    have room : 0 < w.span ∧ w.span ≤ 2 ^ 64 ∧ w.span % 2 = 0 := by cases w <;> decide
    have low := Int.le_bmod (x := (ofBigEndian body : Int)) room.1
    have high := Int.bmod_lt (x := (ofBigEndian body : Int)) room.1
    generalize (ofBigEndian body : Int).bmod w.span = i at low high ⊢
    have value : (Int64.ofInt i).toInt = i := Int64.toInt_ofInt_of_le (by omega) (by omega)
    rw [value, width]
    exact Script.int_shortest (by omega) (by omega)

end Header.Spells

end MessagePack
