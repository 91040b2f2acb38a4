import MessagePack.Proofs.Decode.Nil
import MessagePack.Proofs.Decode.Whole
import MessagePack.Proofs.Record.Alter
/-!
# Reading into a slot is a change

Suppose that it is known what the bytes of a value make of a destination: `change u t x` is what
reading `u` leaves where it finds `x`, of type `t`, if it succeeds.  Then it is known too what the
value makes of a record whose slot it is read into.  `InPlace.slotChange` says so without any
reader: the change is made at the end of the slot's path, and if the value is nil it is dropped
where an embedded record on the path is absent.

Main statement: `InPlace.sound_slotOrSkip_change`.
-/

namespace MessagePack.InPlace

open Parse Read Decoded

variable {cx : Context} {r : Ty → InPlace} {id : RecordId} {d : Datum} {s : Slot}
  {change : List UInt8 → Ty → Datum → Datum}

/-- What the bytes of a value make of a record, by the slot that the value is for. -/
def slotChange (c : Catalog) (change : List UInt8 → Ty → Datum → Datum) (id : RecordId)
    (u : List UInt8) : Option Slot → Datum → Datum
  | some s, d => c.alter (u ≠ [Header.nil.toByte]) (change u) id s.path d
  | none, d => d

theorem slotChange_of_ne {u : List UInt8} (ne : u ≠ [Header.nil.toByte]) (c : Catalog) :
    slotChange c change id u (some s) d = c.alter true (change u) id s.path d := by
  rw [slotChange, decide_eq_true ne]

theorem slotChange_nil (c : Catalog) :
    slotChange c change id [Header.nil.toByte] (some s) d =
      c.alter false (change [Header.nil.toByte]) id s.path d := by
  rw [slotChange, decide_eq_false (not_not_intro rfl)]

variable (reads : ∀ t x, (parse (r t x)).Sound fun u y => y = change u t x)
include reads

/-- What is read into the field of a slot is put at the end of its path. -/
theorem sound_intoSlot_change (s : Slot) (d : Datum) :
    (parse (intoSlot cx r id s d)).Sound fun u y =>
      y = cx.catalog.alter true (change u) id s.path d := by
  rw [parse_intoSlot]
  split
  · exact sound_failure
  · rename_i t x left reached
    refine (reads t x).map ?_
    rintro u y rfl
    exact Catalog.put_of_reach reached

/-- **What a value makes of a record is settled by its bytes and its slot.** -/
theorem sound_slotOrSkip_change (each : ∀ t d, (parse (r t d)).Whole 1) (d : Datum)
    (found : Option Slot) :
    (parse (slotOrSkip cx r id d found)).Sound fun u y =>
      y = slotChange cx.catalog change id u found d := by
  cases found with
  | none =>
    rw [slotOrSkip, parse_skipping]
    exact Sound.map whole_skip fun _ _ _ => rfl
  | some s =>
    rw [slotOrSkip, parse_slot]
    split
    · rename_i absent
      have missing := Option.isNone_iff_eq_none.1 absent.2
      refine (sound_tryNil (Q := fun v y => v = [] ∧ y = d) (sound_pure ⟨rfl, rfl⟩)
        ((whole_intoSlot each s d).and (sound_intoSlot_change reads s d))
        fun u y h => Whole.ne_nil h.1).mono ?_
      rintro u y (⟨v, rfl, rfl, rfl⟩ | ⟨b, v, rfl, other, -, rfl⟩)
      · rw [slotChange_nil, Catalog.alter_of_missing missing]
      · exact (slotChange_of_ne (fun e => other (List.cons.inj e).1) cx.catalog).symm
    · rename_i present
      refine (sound_intoSlot_change reads s d).mono ?_
      rintro u y rfl
      by_cases nil : u = [Header.nil.toByte]
      · subst nil
        rw [slotChange_nil]
        rcases Nat.lt_or_ge 1 s.path.length with long | short
        · cases there : cx.catalog.lookup id s.path d with
          | none => exact absurd ⟨long, by rw [there]; rfl⟩ present
          | some found => exact Catalog.alter_of_lookup there
        · exact Catalog.alter_of_short short
      · exact (slotChange_of_ne nil cx.catalog).symm

end MessagePack.InPlace
