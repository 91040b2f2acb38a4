import MessagePack.Record.Catalog
/-!
# A gallery of records

Sample declarations, at least one for each thing that a declaration can say: tags that rename, omit
or ignore, private fields, embedded records that are plain, optional, renamed, clashing or cyclic,
records that no slot reaches fully, and hosts that only a binding can carry.
-/

namespace MessagePack.Gallery

/-- Whole numbers from zero up. -/
abbrev uint (w : Width) : Ty := .number (.uint w)

/-- Whole numbers of either sign. -/
abbrev int (w : Width) : Ty := .number (.int w)

/-- A public field. -/
def field (name : String) (type : Ty) : FieldDecl := { name, type }

/-- A public field with a tag. -/
def tagged (tag name : String) (type : Ty) : FieldDecl := { name, type, tag := some tag }

/-- A public embedded field. -/
def embedded (name : String) (type : Ty) : FieldDecl := { name, type, embed := true }

/-- A public embedded field with a tag. -/
def taggedEmbedded (tag name : String) (type : Ty) : FieldDecl :=
  { name, type, tag := some tag, embed := true }

/-- A field that takes no part. -/
def hidden (name : String) (type : Ty) : FieldDecl := { name, type, isPublic := false }

/-- A record held behind an option. -/
abbrev optional (id : RecordId) : Ty := .option (.box (.record id))

/-- Public byte fields. -/
def byteFields (names : List String) : List FieldDecl := names.map fun n => field n .byte

/-- The declarations; every record stands behind those that it holds directly. -/
def records : List RecordDecl := [
  { name := "Point", fields := [field "x" (int .w32), field "y" (int .w32)] },
  { name := "Shape",
    fields := [field "name" .text, field "points" (.list (.record 0)), field "closed" .bool,
      field "tags" (.map .sorted .text .text), field "origin" (.option (.record 0))] },
  { name := "Sparse",
    fields := [tagged "n,omitempty" "count" (uint .w32), tagged ",omitempty" "note" .text,
      tagged "-" "cache" (.list .byte), field "always" .byte, hidden "secret" .byte] },
  { name := "Meta",
    fields := [field "id" (uint .w64), field "created" .text, field "shared" .byte] },
  { name := "Owner", fields := [field "owner" .text, field "shared" .byte] },
  { name := "Article",
    fields := [embedded "meta" (.record 3), field "title" .text, embedded "owner" (optional 4),
      field "id" .text] },
  { name := "Node", fields := [field "value" .byte, field "next" (optional 6)] },
  { name := "SelfEmbed", fields := [field "value" (int .w32), embedded "next" (optional 7)] },
  { name := "Marker", fields := [] },
  { name := "Base",
    fields := [field "id" (uint .w64), field "shared" .byte, field "name" .text] },
  { name := "Audit", fields := [field "shared" .byte, field "by" .text] },
  { name := "Doc",
    fields := [embedded "base" (.record 9), field "name" .text, embedded "audit" (optional 10),
      tagged "v,omitempty" "version" (uint .w32), tagged "-" "scratch" (uint .w32),
      hidden "secret" .byte] },
  { name := "Renamed", fields := [taggedEmbedded "base" "inner" (.record 9)] },
  { name := "NamedOmit",
    fields := [taggedEmbedded "p,omitempty" "p" (.record 0),
      tagged "q,omitempty" "q" (.option (.record 0))] },
  { name := "EmbedOmit",
    fields := [taggedEmbedded ",omitempty" "p" (.record 0), field "z" .byte] },
  { name := "EmbedIgnored", fields := [taggedEmbedded "-" "p" (.record 0), field "z" .byte] },
  { name := "EmbedPrivate",
    fields := [{ name := "p", type := .record 0, embed := true, isPublic := false },
      field "z" .byte] },
  { name := "Leaf", fields := [field "leaf" .byte, tagged ",omitempty" "twig" .text] },
  { name := "Mid", fields := [field "mid" .byte, embedded "leaf" (.option (.record 17))] },
  { name := "Deep",
    fields := [field "top" .byte, embedded "mid" (optional 18), embedded "audit" (.record 10)] },
  { name := "LoopA", fields := [field "a" .byte, embedded "b" (optional 21)] },
  { name := "LoopB", fields := [field "b" .byte, embedded "a" (optional 20)] },
  { name := "Clash",
    fields := [tagged "same" "a" .byte, tagged "same" "b" .byte, field "c" .byte,
      tagged "x" "d" .text, embedded "p" (.record 0)] },
  { name := "Wide",
    fields := byteFields ["a", "b", "c", "d", "e", "f", "g", "h", "i", "j", "k", "l", "m", "n",
      "o", "p", "q"] },
  { name := "Wide15",
    fields := byteFields ["a", "b", "c", "d", "e", "f", "g", "h", "i", "j", "k", "l", "m", "n"] ++
      [tagged "o,omitempty" "o" .byte, tagged ",omitempty" "p" .byte] },
  { name := "Names",
    fields := [tagged "naïve ключ" "a" .byte, tagged "-," "b" .byte,
      tagged "sp, omitempty " "c" .byte, tagged "opts,foo,omitempty,bar" "d" .byte,
      tagged "notomit,omitEmpty" "e" .byte, tagged "" "f" .byte,
      tagged "a_wire_name_of_exactly_32_bytes_" "g" .byte, tagged " omitempty" "h" .byte,
      hidden "i" .byte] },
  { name := "Zeros",
    fields := [("bool_", Ty.bool), ("int", int .w64), ("byte", .byte), ("f32_", .number .single),
        ("f64_", .number .double), ("text", .text), ("bytes", .bytes), ("list", .list (uint .w16)),
        ("arr0", .array 0 .byte), ("arr2", .array 2 .byte), ("pair", .tuple [.byte, .bool]),
        ("opt", .option .byte), ("boxed", .box .byte), ("map", .map .sorted .text .byte),
        ("value", .dynamic), ("at", .timestamp), ("point", .record 0), ("marker", .record 8),
        ("sparse", .record 2), ("article", .record 5)].map fun (name, type) =>
      tagged ",omitempty" name type },
  { name := "Version", qualifiedName := "driver::records::Version", form := .external,
    fields := [field "major" (uint .w16), field "minor" (uint .w16)] },
  { name := "Release",
    fields := [field "name" .text, tagged "version,omitempty" "version" (.record 27),
      tagged ",omitempty" "at" (.option .timestamp)] },
  { name := "Opaque", qualifiedName := "driver::records::Opaque",
    fields := [field "id" (uint .w32)] },
  { name := "HoldsOpaque",
    fields := [embedded "o" (.record 29), field "p" (.record 29),
      field "q" (.option (.record 29))] },
  { name := "Loose",
    fields := [field "v" .dynamic, field "l" (.list .dynamic), field "o" (.option .dynamic)] },
  { name := "Wrapper", fields := [field "0" .byte, field "1" .text] },
  { name := "PairRec",
    fields := [field "0" .byte, hidden "1" (int .w8), embedded "2" (.record 0),
      tagged "w" "3" .byte] },
  { name := "Gen", fields := [field "item" .byte, field "n" .byte] },
  { name := "Gen", fields := [field "item" .text, field "n" .byte] },
  { name := "BadField", form := .manual,
    fields := [field "a" .byte, { name := "b", type := .byte, reachable := false }] },
  { name := "BadEmbed", form := .manual,
    fields := [{ name := "p", type := .record 0, embed := true, reachable := false },
      field "z" .byte] },
  { name := "Celsius", qualifiedName := "driver::records::Celsius", form := .external,
    fields := [field "deg" (int .w16)] },
  { name := "Blob", qualifiedName := "driver::records::Blob", form := .external,
    fields := [field "data" (.list .byte)] }]

/-- The catalog of the sample declarations. -/
def catalog : Catalog where
  records := records
  isGrounded := by decide +kernel

/-- The place of a declaration by name; of two with one name the first. -/
def find? (name : String) : Option RecordId := records.findIdx? (·.name == name)

end MessagePack.Gallery
