import MessagePack.Encode.Datum
import MessagePack.Proofs.Encode.Runs
/-!
# Scripts by type

`Datum.script` is led by the type.  Here stands one equation for each form of type whose script runs
through parts, in terms of the scripts of the parts alone; everything later cites these.

`Script.FaultsIn P` says that a script can only end in faults of `P`.  Main statement:
`Context.RaisesIn.datum`, the faults of writing are those of lengths, keys and hosts without a form
on the wire, of fields that a record does not hand out, and those that bindings raise.
-/

namespace MessagePack

variable (cx : Context)

/-! ## 1. Equations -/

namespace Datum

theorem script_list (t : Ty) (d : Datum) :
    d.script cx (.list t) = .sequence t d.items (d.items.map (script cx t)) := by
  rw [script]
  simp

theorem script_array (n : Nat) (t : Ty) (d : Datum) :
    d.script cx (.array n t) = .sequence t d.items (d.items.map (script cx t)) := by
  rw [script]
  simp

theorem script_tuple (ts : List Ty) (d : Datum) :
    d.script cx (.tuple ts) =
      .header .array ts.length ++ .all ((ts.zip d.items).map fun p => p.2.script cx p.1) := by
  rw [script, ← List.attach_map_val (f := fun p : Ty × Datum => p.2.script cx p.1)]

theorem script_option (t : Ty) (d : Datum) :
    d.script cx (.option t) =
      match d.held? with
      | some x => x.script cx t
      | none => .nil := by
  rw [script]
  split <;> simp_all

theorem script_box (t : Ty) (d : Datum) : d.script cx (.box t) = d.script cx t := by
  rw [script]

/-- What is put for one entry of a map. -/
def entryScript (kt vt : Ty) (e : Datum × Datum) : Script :=
  Script.key (cx.wireKind kt e.1) (e.1.script cx kt) ++ e.2.script cx vt

theorem script_map (order : MapOrder) (kt vt : Ty) (d : Datum) :
    d.script cx (.map order kt vt) =
      .header .map d.entries.length ++ .all (d.entries.map (entryScript cx kt vt)) := by
  rw [script, ← List.attach_map_val (f := entryScript cx kt vt)]
  rfl

/-- A record that a binding claims, or that only a binding can carry, goes through its binding. -/
theorem script_bound {id : RecordId} (d : Datum)
    (h : (cx.hasBinding (.record id) || (cx.catalog.decl id).form == .external) = true) :
    d.script cx (.record id) = cx.encodeExtension (.record id) d := by
  rw [script, if_pos h]

/-- What is put for one slot of an array. -/
def positionalScript (id : RecordId) (d : Datum) (s : Slot) : Script :=
  match cx.catalog.lookup id s.path d with
  | some (t, x) => x.script cx t
  | none => .nil

theorem script_positional {id : RecordId} (d : Datum)
    (h : (cx.hasBinding (.record id) || (cx.catalog.decl id).form == .external) = false)
    (mode : cx.mode = .positional) :
    d.script cx (.record id) =
      .consult id ++ (.header .array (cx.layout id).slots.length ++
        .all ((cx.layout id).slots.map (positionalScript cx id d))) := by
  rw [script, h, mode]
  simp only [Bool.false_eq_true, if_false]
  congr 3
  refine List.map_congr_left ?_
  intro s _
  rw [positionalScript]
  split <;> simp_all

/-- What is put for one slot of a map that leaves no slot out. -/
def directScript (id : RecordId) (d : Datum) (s : Slot) : Script :=
  match cx.catalog.lookup id s.path d with
  | some (t, x) => .text s.name ++ x.script cx t
  | none => .fail (.misfit (.hiddenField s.name))

theorem script_direct {id : RecordId} (d : Datum)
    (h : (cx.hasBinding (.record id) || (cx.catalog.decl id).form == .external) = false)
    (mode : cx.mode = .named) (never : (cx.layout id).neverOmits = true) :
    d.script cx (.record id) =
      .consult id ++ (.header .map (cx.layout id).slots.length ++
        .all ((cx.layout id).slots.map (directScript cx id d))) := by
  rw [script, h, mode]
  simp only [Bool.false_eq_true, if_false, never, if_true]
  congr 3
  refine List.map_congr_left ?_
  intro s _
  rw [directScript]
  split <;> simp_all

/-- What is put for one slot of a map that leaves out zeros and what is absent. -/
def presentScript (id : RecordId) (d : Datum) (s : Slot) : Script :=
  match cx.present? id d s with
  | some (t, x) => .text s.name ++ x.script cx t
  | none => .done

theorem script_counted {id : RecordId} (d : Datum)
    (h : (cx.hasBinding (.record id) || (cx.catalog.decl id).form == .external) = false)
    (mode : cx.mode = .named) (omits : (cx.layout id).neverOmits = false) :
    d.script cx (.record id) =
      .consult id ++
        (.header .map ((cx.layout id).slots.countP fun s => (cx.present? id d s).isSome) ++
          .all ((cx.layout id).slots.map (presentScript cx id d))) := by
  rw [script, h, mode]
  simp only [Bool.false_eq_true, if_false, omits]
  congr 3
  refine List.map_congr_left ?_
  intro s _
  rw [presentScript]
  split <;> simp_all

end Datum

/-! ## 2. How writing can fail -/

namespace Script

variable {P : Fault → Prop} {s t : Script}

/-- A script that ends in faults of `P` only, if in any. -/
def FaultsIn (P : Fault → Prop) (s : Script) : Prop := ∀ f, s.effect.2 = .error f → P f

/-- What goes well raises nothing. -/
theorem FaultsIn.of_ok (h : s.effect.2 = .ok ()) : s.FaultsIn P := by
  intro f e
  rw [h] at e
  cases e

/-- Scripts in a row raise what one of them does. -/
theorem FaultsIn.append (hs : s.FaultsIn P) (ht : t.FaultsIn P) : (s ++ t).FaultsIn P := by
  intro f e
  rw [effect_append] at e
  cases first : s.effect.2 with
  | ok u =>
    rw [first] at e
    exact ht f e
  | error g =>
    rw [first] at e
    cases e
    exact hs f first

/-- However many there are. -/
theorem FaultsIn.all {scripts : List Script} (h : ∀ s ∈ scripts, s.FaultsIn P) :
    (Script.all scripts).FaultsIn P := by
  induction scripts with
  | nil => exact .of_ok rfl
  | cons s rest ih =>
    exact .append (h s (by simp)) (ih fun t ht => h t (List.mem_cons_of_mem _ ht))

theorem faultsIn_fail {f : Fault} (h : P f) : (Script.fail f).FaultsIn P := by
  intro g e
  cases e
  exact h

theorem faultsIn_uint (n : Nat) : (uint n).FaultsIn P := by
  unfold uint
  repeat' split
  all_goals exact .of_ok rfl

theorem faultsIn_int (i : Int) : (int i).FaultsIn P := by
  unfold int
  split
  · exact faultsIn_uint _
  · repeat' split
    all_goals exact .of_ok rfl

theorem faultsIn_number (t : NumType) (d : Datum) : (number t d).FaultsIn P := by
  cases t with
  | uint w => exact faultsIn_uint _
  | int w => exact faultsIn_int _
  | single | double => exact .of_ok rfl

variable (unwritable : ∀ cause, P (.unwritable cause))
include unwritable

theorem faultsIn_header (f : Family) (n : Nat) : (header f n).FaultsIn P := by
  unfold header
  split
  · exact .of_ok rfl
  · exact faultsIn_fail (unwritable _)

theorem faultsIn_text (s : String) : (text s).FaultsIn P :=
  (faultsIn_header unwritable _ _).append (.of_ok rfl)

theorem faultsIn_bin (bs : List UInt8) : (bin bs).FaultsIn P :=
  (faultsIn_header unwritable _ _).append (.of_ok rfl)

theorem faultsIn_ext (tag : Int8) (payload : List UInt8) : (ext tag payload).FaultsIn P :=
  ((faultsIn_header unwritable _ _).append (.of_ok rfl)).append (.of_ok rfl)

/-- A key may be refused, or raise what it raises. -/
theorem FaultsIn.key (kind : Kind) (h : s.FaultsIn P) : (Script.key kind s).FaultsIn P := by
  unfold Script.key
  split
  · exact faultsIn_fail (unwritable _)
  · exact h

/-- A list may be too long, or raise what its items do. -/
theorem FaultsIn.sequence (elem : Ty) (items : List Datum) {scripts : List Script}
    (h : ∀ s ∈ scripts, s.FaultsIn P) : (Script.sequence elem items scripts).FaultsIn P := by
  unfold Script.sequence
  split
  · exact faultsIn_bin unwritable _
  · exact (faultsIn_header unwritable _ _).append (.of_ok rfl)
  · exact (faultsIn_header unwritable _ _).append (.of_ok rfl)
  · exact (faultsIn_header unwritable _ _).append (.of_ok rfl)
  · exact (faultsIn_header unwritable _ _).append (.all h)

end Script

/-- The faults of `P` are all that writing can raise: `P` has the faults of lengths, keys and hosts
without a form on the wire, of fields that a record does not hand out, and of the bindings. -/
structure Context.RaisesIn (cx : Context) (P : Fault → Prop) : Prop where
  unwritable : ∀ cause, P (.unwritable cause)
  hidden : ∀ name, P (.misfit (.hiddenField name))
  bound : ∀ h b, cx.registry.forHost? h = some b → ∀ d, (b.encode d).FaultsIn P

namespace Context.RaisesIn

variable {cx} {P : Fault → Prop}

/-- An extension may have no binding, or one that refuses. -/
theorem encodeExtension (raises : cx.RaisesIn P) (h : Host) (d : Datum) :
    (cx.encodeExtension h d).FaultsIn P := by
  unfold Context.encodeExtension
  split
  · rename_i b e
    exact raises.bound h b e d
  · exact Script.faultsIn_fail (raises.unwritable _)

mutual

theorem value (raises : cx.RaisesIn P) : ∀ v : Value, (v.script cx).FaultsIn P
  | .nil | .bool _ | .single _ | .double _ => .of_ok rfl
  | .int _ => Script.faultsIn_int _
  | .uint _ => Script.faultsIn_uint _
  | .text s => Script.faultsIn_text raises.unwritable s
  | .bin bs => Script.faultsIn_bin raises.unwritable bs
  | .array vs => (Script.faultsIn_header raises.unwritable _ _).append (values raises vs)
  | .map es => (Script.faultsIn_header raises.unwritable _ _).append (entries raises es)
  | .ext tag payload => Script.faultsIn_ext raises.unwritable tag payload
  | .timestamp _ => raises.encodeExtension _ _

theorem values (raises : cx.RaisesIn P) : ∀ vs : List Value, (Value.itemsScript cx vs).FaultsIn P
  | [] => .of_ok rfl
  | v :: vs => (value raises v).append (values raises vs)

theorem entries (raises : cx.RaisesIn P) :
    ∀ es : List (Value × Value), (Value.entriesScript cx es).FaultsIn P
  | [] => .of_ok rfl
  | (k, v) :: es =>
    ((Script.FaultsIn.key raises.unwritable _ (value raises k)).append
      (value raises v)).append (entries raises es)

end

/-- **Writing a datum raises nothing but what lengths, keys, hidden fields and bindings raise.** -/
theorem datum (raises : cx.RaisesIn P) (t : Ty) (d : Datum) : (d.script cx t).FaultsIn P := by
  match t with
  | .bool => rw [Datum.script]; exact .of_ok rfl
  | .number t => rw [Datum.script]; exact Script.faultsIn_number t d
  | .text => rw [Datum.script]; exact Script.faultsIn_text raises.unwritable _
  | .bytes => rw [Datum.script]; exact Script.faultsIn_bin raises.unwritable _
  | .dynamic => rw [Datum.script]; exact raises.value _
  | .timestamp => rw [Datum.script]; exact raises.encodeExtension _ _
  | .clockTime => rw [Datum.script]; exact raises.encodeExtension _ _
  | .list t =>
    rw [Datum.script_list]
    refine .sequence raises.unwritable _ _ ?_
    intro s hs
    obtain ⟨x, hx, rfl⟩ := List.mem_map.1 hs
    -- smaller by what stands around it, which the recursion goes down by
    have := Datum.sizeOf_items hx
    exact datum raises t x
  | .array n t =>
    rw [Datum.script_array]
    refine .sequence raises.unwritable _ _ ?_
    intro s hs
    obtain ⟨x, hx, rfl⟩ := List.mem_map.1 hs
    have := Datum.sizeOf_items hx
    exact datum raises t x
  | .tuple ts =>
    rw [Datum.script_tuple]
    refine (Script.faultsIn_header raises.unwritable _ _).append (.all fun s hs => ?_)
    obtain ⟨⟨t, x⟩, hx, rfl⟩ := List.mem_map.1 hs
    have := Datum.sizeOf_items (List.of_mem_zip hx).2
    exact datum raises t x
  | .option t =>
    rw [Datum.script_option]
    split
    · rename_i x hx
      have := Datum.sizeOf_held hx
      exact datum raises t x
    · exact .of_ok rfl
  | .box t => rw [Datum.script_box]; exact datum raises t d
  | .map order kt vt =>
    rw [Datum.script_map]
    refine (Script.faultsIn_header raises.unwritable _ _).append (.all fun s hs => ?_)
    obtain ⟨⟨k, v⟩, he, rfl⟩ := List.mem_map.1 hs
    have := Datum.sizeOf_entries he
    exact (Script.FaultsIn.key raises.unwritable _ (datum raises kt k)).append (datum raises vt v)
  | .record id =>
    by_cases bound : (cx.hasBinding (.record id) || (cx.catalog.decl id).form == .external) = true
    · rw [Datum.script_bound cx d bound]
      exact raises.encodeExtension _ _
    · rw [Bool.not_eq_true] at bound
      cases mode : cx.mode with
      | positional =>
        rw [Datum.script_positional cx d bound mode]
        refine .append (.of_ok rfl) ((Script.faultsIn_header raises.unwritable _ _).append
          (.all fun s hs => ?_))
        obtain ⟨slot, -, rfl⟩ := List.mem_map.1 hs
        unfold Datum.positionalScript
        split
        · rename_i t x found
          have := Catalog.sizeOf_lookup found
          exact datum raises t x
        · exact .of_ok rfl
      | named =>
        cases omits : (cx.layout id).neverOmits with
        | true =>
          rw [Datum.script_direct cx d bound mode omits]
          refine .append (.of_ok rfl) ((Script.faultsIn_header raises.unwritable _ _).append
            (.all fun s hs => ?_))
          obtain ⟨slot, -, rfl⟩ := List.mem_map.1 hs
          unfold Datum.directScript
          split
          · rename_i t x found
            have := Catalog.sizeOf_lookup found
            exact (Script.faultsIn_text raises.unwritable _).append (datum raises t x)
          · exact Script.faultsIn_fail (raises.hidden _)
        | false =>
          rw [Datum.script_counted cx d bound mode omits]
          refine .append (.of_ok rfl) ((Script.faultsIn_header raises.unwritable _ _).append
            (.all fun s hs => ?_))
          obtain ⟨slot, -, rfl⟩ := List.mem_map.1 hs
          unfold Datum.presentScript
          split
          · rename_i t x found
            have := Context.sizeOf_present found
            exact (Script.faultsIn_text raises.unwritable _).append (datum raises t x)
          · exact .of_ok rfl
termination_by (sizeOf d, sizeOf t)
decreasing_by
  all_goals first
    | exact Prod.Lex.left _ _ ‹_›
    | exact Prod.Lex.left _ _ (‹_ ∧ _›).1
    | exact Prod.Lex.left _ _ (‹_ ∧ _›).2
    | exact Prod.Lex.right _ (by simp only [Ty.box.sizeOf_spec]; omega)

end Context.RaisesIn

end MessagePack
