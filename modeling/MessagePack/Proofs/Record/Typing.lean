import MessagePack.Proofs.Record.Places
/-!
# Records of a type

Following a path for writing keeps a record one of its type, whether or not the path leads anywhere;
what it finds is of the field's type, and putting another datum of that type there keeps the record
one of its type as well.

Main statement: `Catalog.OfType.reach`.
-/

namespace MessagePack.Catalog

variable {c : Catalog} {id inner : RecordId} {i : Nat} {f : FieldDecl} {t : Ty} {d r v x : Datum}

namespace OfType

/-- A record with a field replaced by a datum of the field's type. -/
theorem setField (typed : c.OfType (.record id) d) (field : c.field? id i = some f)
    (fits : c.OfType f.type v) : c.OfType (.record id) (d.setField i v) := by
  cases typed with
  | record length each =>
    refine .record (by rw [List.length_set]; exact length) ?_
    intro j g x at' here
    rw [List.getElem?_set] at here
    split at here
    · rename_i same
      subst same
      cases field.symm.trans at'
      split at here
      · cases here
        exact fits
      · cases here
    · exact each j g x at' here

/-- A record is held as its type says, however often boxed. -/
theorem holding (typed : c.OfType (.record inner) r) :
    ∀ {t : Ty}, t.embedded? = some inner → c.OfType t (t.holding r)
  | .record _, embeds => by
    cases embeds
    exact typed
  | .box t, embeds => .box (holding typed (t := t) embeds)
  | .option t, embeds => .present (holding typed (t := t) embeds)

/-- What is allocated is of the embedded record's type. -/
theorem allocate (typed : c.OfType t x) (embeds : t.embedded? = some inner) :
    c.OfType (.record inner) (c.allocate t x) := by
  rw [allocate_eq embeds]
  cases inside : t.recordIn? x with
  | none => exact c.ofType_initial_record inner
  | some r => exact typed.recordIn embeds inside

/-- **Following a path keeps a record one of its type**, and so does putting a datum of the type
that was found there. -/
theorem reach (typed : c.OfType (.record id) d) (name : String) (path : List Nat) :
    c.OfType (.record id) (c.reach name id path d).2 ∧
      ∀ found, (c.reach name id path d).1 = .ok found → c.OfType found.1 found.2 ∧
        ∀ v, c.OfType found.1 v →
          c.OfType (.record id) (c.put id path (c.reach name id path d).2 v) := by
  induction path generalizing id d with
  | nil =>
    refine ⟨typed, ?_⟩
    rintro _ ⟨⟩
  | cons i rest ih =>
    cases rest with
    | nil =>
      rw [Catalog.reach]
      split
      · rename_i f x direct here
        have field := direct?_eq_some direct
        refine ⟨typed, ?_⟩
        rintro _ ⟨⟩
        exact ⟨typed.field field here, fun v fits => typed.setField field fits⟩
      · refine ⟨typed, ?_⟩
        rintro _ ⟨⟩
    | cons j rest =>
      rw [Catalog.reach]
      split
      · rename_i t inner x enter here
        obtain ⟨f, field, rfl, embeds⟩ := enter?_eq_some enter
        obtain ⟨way, ends⟩ := ih ((typed.field field here).allocate embeds)
        refine ⟨typed.setField field (way.holding embeds), fun found reached => ?_⟩
        obtain ⟨fits, puts⟩ := ends found reached
        refine ⟨fits, fun v fits => ?_⟩
        rw [put_within (List.cons_ne_nil j rest) enter (getElem?_setField here), setField_setField,
          allocate_holding embeds]
        exact typed.setField field ((puts v fits).holding embeds)
      · refine ⟨typed, ?_⟩
        rintro _ ⟨⟩

end OfType

end MessagePack.Catalog
