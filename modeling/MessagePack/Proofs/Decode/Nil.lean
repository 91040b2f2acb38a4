import MessagePack.Proofs.Decode.Levels
import MessagePack.Proofs.Time.Clock
/-!
# What nil makes of a destination

Reading nil leaves records, tuples and timestamps as they are, and also a clock time, which goes
through its timestamp and back; everything else becomes what is fresh of its type.  That is never
changed.

Main statements: `Datum.eq_afterNil_of_takes` and `Catalog.afterNil_initial`.
-/

namespace MessagePack

/-- What nil makes of a destination. -/
def Catalog.afterNil (c : Catalog) : Ty → Datum → Datum
  | .timestamp, d => d
  | .clockTime, d => .clockTime d.asClockTime
  | .tuple _, d => d
  | .box t, d => c.afterNil t d
  | .record _, d => d
  | t, _ => c.initial t

theorem Catalog.afterNil_initial (c : Catalog) : ∀ t : Ty, c.afterNil t (c.initial t) = c.initial t
  | .box t => c.afterNil_initial t
  | .bool | .number _ | .text | .bytes | .dynamic | .timestamp | .clockTime | .list _ | .array _ _
  | .tuple _ | .option _ | .map _ _ _ | .record _ => rfl

namespace Datum

open InPlace Decoded Parse

variable {cx : Context} {n : Nat} {x y : Datum}

/-- **What is read from nil is settled by the type and the destination.** -/
theorem eq_afterNil_of_takes : ∀ {t : Ty},
    (parse (read cx n t x)).Takes [Header.nil.toByte] y → y = cx.catalog.afterNil t x
  | .bool, takes => by
    rw [parse_read_bool] at takes
    exact (Option.some.inj takes.result).symm
  | .number t, takes => by
    rw [parse_read_number] at takes
    have e := takes.result
    cases t with
    | uint w =>
      cases w <;> exact (Option.some.inj e).symm
    | int w => cases w <;> exact (Option.some.inj e).symm
    | single => exact (Option.some.inj e).symm
    | double => exact (Option.some.inj e).symm
  | .text, takes => by
    rw [parse_read_text] at takes
    exact (Option.some.inj takes.result).symm
  | .bytes, takes => by
    rw [parse_read_bytes] at takes
    exact (Option.some.inj takes.result).symm
  | .dynamic, takes => by
    rw [parse_read_dynamic, Value.read_eq] at takes
    exact (Option.some.inj takes.result).symm
  | .timestamp, takes => by
    rw [read_eq, readStep, parse_extension] at takes
    exact (Option.some.inj takes.result).symm
  | .clockTime, takes => by
    rw [read_eq, readStep, parse_clockTime] at takes
    have kept : (parse (extension cx .timestamp (.timestamp x.asClockTime.toTimestamp))).Takes
        [Header.nil.toByte] (.timestamp x.asClockTime.toTimestamp) := by
      rw [parse_extension]
      exact fun _ _ known => ⟨known, rfl⟩
    refine takes.unique ((kept.retrace _).bind (v := []) ?_)
    simp only [asTimestamp, ClockTime.toClockTime?_toTimestamp]
    exact takes_pure _
  | .list t, takes => by
    rw [read_eq, readStep, parse_sequence] at takes
    split at takes
    · rw [parse_byteList] at takes
      exact (Option.some.inj takes.result).symm
    · rw [parse_list] at takes
      exact (Option.some.inj takes.result).symm
  | .array length t, takes => by
    rw [read_eq, readStep, parse_array] at takes
    exact (Option.some.inj takes.result).symm
  | .tuple ts, takes => by
    rw [read_eq, readStep, parse_tuple] at takes
    exact (Option.some.inj takes.result).symm
  | .option t, takes => by
    rw [parse_read_option] at takes
    exact (Option.some.inj takes.result).symm
  | .box t, takes => by
    rw [read_box] at takes
    exact eq_afterNil_of_takes (t := t) takes
  | .map order kt vt, takes => by
    rw [read_eq, readStep, parse_map] at takes
    exact (Option.some.inj takes.result).symm
  | .record id, takes => by
    rw [read_eq, readStep] at takes
    cases bound : cx.isBound id with
    | true =>
      rw [parse_record_bound bound, parse_extension] at takes
      exact (Option.some.inj takes.result).symm
    | false =>
      rw [parse_record bound] at takes
      cases n with
      | zero => cases takes.result
      | succ n =>
        have e := takes.result
        change result?
          (fun c => (parse (InPlace.fields cx (read cx n) id x)).nested (c.consult id)) _ = _ at e
        cases mode : cx.mode with
        | positional =>
          rw [parse_fields_positional mode] at e
          exact (Option.some.inj e).symm
        | named =>
          rw [parse_fields_named mode] at e
          exact (Option.some.inj e).symm

/-- Nil read into a fresh destination leaves it fresh. -/
theorem eq_initial_of_takes_nil {t : Ty}
    (takes : (parse (read cx n t (cx.catalog.initial t))).Takes [Header.nil.toByte] y) :
    y = cx.catalog.initial t := by
  rw [eq_afterNil_of_takes takes, cx.catalog.afterNil_initial]

end Datum

end MessagePack
