import MessagePack.Proofs.Decode.Value
import MessagePack.Proofs.Wire.Tree
/-!
# What trees are read as

A complete value is a tree.  Which dynamic value it is read as is said here of the tree alone,
without any reader: `Header.ReadsAs` says it of what has no parts, `WireValue.ReadsAs` of all trees.
Neither says how many levels are left.

Main statement: `WireValue.ReadsAs.takes`, given the levels, the bytes of the tree are read as that
value.
-/

namespace MessagePack

open WireValue

/-- What a header that owes no values is read as with what belongs to it. -/
inductive Header.ReadsAs (registry : Registry) : Header → List UInt8 → Value → Prop
  | nil : ReadsAs registry .nil [] .nil
  | bool (b : Bool) : ReadsAs registry (.bool b) [] (.bool b)
  | uint {h : Header} {body : List UInt8} {u : UInt64} (spells : h.Spells body (.uint u)) :
      ReadsAs registry h body (.uint u)
  | int {h : Header} {body : List UInt8} {i : Int64} (spells : h.Spells body (.int i)) :
      ReadsAs registry h body (.int i)
  | single {body : List UInt8} {x : Single} (spells : Header.single.Spells body (.float x.widen)) :
      ReadsAs registry .single body (.single x.widen.narrow)
  | double {body : List UInt8} {x : Double} (spells : Header.double.Spells body (.float x)) :
      ReadsAs registry .double body (.double x)
  | text {h : Header} {body : List UInt8} {s : String} (text : h.isText = true)
      (holds : h.Holds body (utf8Bytes s)) : ReadsAs registry h body (.text s)
  | bin {h : Header} {body payload : List UInt8} (bin : h.isBin = true)
      (holds : h.Holds body payload) : ReadsAs registry h body (.bin payload)
  | extension {h : Header} {body payload : List UInt8} {tag : Int8} {v : Value}
      (holds : h.HoldsExt body tag payload) (rich : Value.ofExt registry tag payload = .ok v) :
      ReadsAs registry h body v

/-- What a tree is read as.  The keys and the values of a map stand in turn. -/
inductive WireValue.ReadsAs (registry : Registry) : WireValue → Value → Prop
  | flat {b : UInt8} {body : List UInt8} {v : Value}
      (alone : (Header.ofByte b).ReadsAs registry body v) : ReadsAs registry (.node b body []) v
  | array {b : UInt8} {body : List UInt8} {ws : List WireValue} {items : List Value}
      (array : (Header.ofByte b).isArray = true) (own : (Header.ofByte b).Owes body ws.length)
      (length : ws.length = items.length) (each : ∀ p ∈ ws.zip items, ReadsAs registry p.1 p.2) :
      ReadsAs registry (.node b body ws) (.array items)
  | map {b : UInt8} {body : List UInt8} {es : List (WireValue × WireValue)}
      {entries : List (Value × Value)}
      (map : (Header.ofByte b).isMap = true) (own : (Header.ofByte b).Owes body (2 * es.length))
      (single : ∀ e ∈ es, e.1.header.isContainer = false) (length : es.length = entries.length)
      (keys : ∀ p ∈ es.zip entries, ReadsAs registry p.1.1 p.2.1)
      (values : ∀ p ∈ es.zip entries, ReadsAs registry p.1.2 p.2.2) :
      ReadsAs registry (.node b body (unpair es)) (.map entries)

variable {registry : Registry} {h : Header} {body : List UInt8} {v : Value} {w : WireValue}
  {n : Nat}

namespace Header.ReadsAs

theorem flat (reads : h.ReadsAs registry body v) : h.isContainer = false := by
  cases reads with
  | nil | bool | single | double => rfl
  | uint spells | int spells => exact spells.flat
  | text _ holds | bin _ holds => exact holds.flat
  | extension holds _ => exact holds.flat

theorem owes (reads : h.ReadsAs registry body v) : h.Owes body 0 := by
  cases reads with
  | nil | bool => exact ⟨rfl, rfl⟩
  | uint spells | int spells | single spells | double spells => exact spells.owes
  | text _ holds | bin _ holds => exact holds.owes
  | extension holds _ => exact holds.owes

open Value in
/-- The header and what belongs to it are read so, whatever lies below. -/
theorem takes (reads : h.ReadsAs registry body v) (stands : h.Stands)
    (deeper : Option (Read Value)) :
    (readStep registry deeper).parse.Takes (h.toByte :: body) v := by
  cases reads with
  | nil => exact takes_nil
  | bool b => exact takes_truth b
  | uint spells => exact takes_uint spells
  | int spells => exact takes_int spells
  | single spells => exact takes_single spells
  | double spells => exact takes_double spells
  | @text _ _ s text holds => exact takes_string stands text holds (textOfUtf8?_utf8Bytes s)
  | bin bin holds => exact takes_bin stands bin holds
  | extension holds rich => exact takes_extension stands holds rich

end Header.ReadsAs

namespace WireValue.ReadsAs

/-- A tree that is no array and no map owes no values, so it can be a key. -/
theorem flat_of_single (reads : w.ReadsAs registry v) (single : w.header.isContainer = false) :
    Flat w.bytes := by
  cases reads with
  | @flat b body v alone => exact ⟨b, body, bytes_flat b body, alone.flat, alone.owes⟩
  | array array =>
    exact absurd (single.symm.trans (Header.isContainer_of_isArray array)) nofun
  | map map =>
    exact absurd (single.symm.trans (Header.isContainer_of_isMap map)) nofun

open Value Read in
/-- **Given the levels, the bytes of a tree are read as its value.** -/
theorem takes (reads : w.ReadsAs registry v) (shallow : w.depth ≤ n) :
    (Value.read registry n).parse.Takes w.bytes v := by
  induction reads generalizing n with
  | @flat b body v alone =>
    rw [read_eq, bytes_flat, ← Header.toByte_ofByte b]
    exact alone.takes (Header.stands_ofByte b) _
  | @array b body ws items array own length each ih =>
    obtain ⟨m, rfl, levels⟩ :=
      (depth_le_of_deep (Header.isContainer_of_isArray array)).1 shallow
    have inner : List.Forall₂ (fun x a => (Value.read registry m).parse.Takes x.bytes a) ws items :=
      List.forall₂_iff_zip.2 ⟨length, fun h => ih _ h (levels _ (List.of_mem_zip h).1)⟩
    rw [read_eq, bytes, bytesAll_eq_flatMap, ← Header.toByte_ofByte b]
    exact takes_array (Header.stands_ofByte b) array own (takes_repeated inner [])
  | @map b body es entries map own single length keys values ihk ihv =>
    obtain ⟨m, rfl, levels⟩ :=
      (depth_le_of_deep (Header.isContainer_of_isMap map)).1 shallow
    have below := forall_mem_unpair.1 levels
    have inner : List.Forall₂ (fun (e : WireValue × WireValue) a =>
        (readEntry (Value.read registry m)).parse.Takes (e.1.bytes ++ e.2.bytes) a) es entries := by
      refine List.forall₂_iff_zip.2 ⟨length, fun {e a} h => ?_⟩
      have mem := (List.of_mem_zip h).1
      have key := ihk _ h (below e mem).1
      have value := ihv _ h (below e mem).2
      exact takes_entry ((keys _ h).flat_of_single (single e mem)) key value
    rw [read_eq, bytes, bytesAll_unpair, ← Header.toByte_ofByte b]
    exact takes_map (Header.stands_ofByte b) map own (takes_repeated inner [])

end WireValue.ReadsAs

end MessagePack
