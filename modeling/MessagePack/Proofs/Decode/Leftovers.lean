import MessagePack.Proofs.Datum.Keys
import MessagePack.Proofs.Decode.Replaced
import MessagePack.Proofs.Decode.Typing
/-!
# What a failed reading leaves

Reading may fail at any header, element, key or check, at any depth.  What it leaves then depends on
the type of the destination.  A scalar, a dynamic value, a time and an array of fixed length are
assigned at once, in the end, so they are left as they were.  A list and a map are emptied first and
then filled; what is in them is what was read from this input before the fault.  So nothing is ever
left that mixes old elements with new ones.

What was read is said of the input alone: `Read.Stops` follows a reader from value to value until it
fails, `Read.Before` starts behind the header that announces how many there are.

Main statement: `Codec.decodeInto_leaves`.
-/

namespace MessagePack

/-! ## 1. Where a run fails -/

namespace Decoded

variable {α : Type} {left : Datum} {c : Cursor} {f : Fault}

/-- A fault is the read's own, or that of what follows it. -/
theorem afterRead_fault {r : Read α} {next : α → Cursor → Decoded}
    (failed : (afterRead r left next c).outcome = .error f) :
    (∃ c', r c = (.error f, c')) ∧ (afterRead r left next c).dest = left ∨
      ∃ a c', r c = (.ok a, c') ∧ afterRead r left next c = next a c' := by
  unfold afterRead at failed ⊢
  rcases run : r c with ⟨f' | a, c'⟩ <;> rw [run] at failed
  · cases failed
    exact .inl ⟨⟨c', rfl⟩, rfl⟩
  · exact .inr ⟨a, c', rfl, rfl⟩

/-- Where one run follows another, a fault is of either. -/
theorem afterRun_fault {first : Cursor → Decoded} {lefts : Datum → Datum}
    {next : Datum → Cursor → Decoded} (failed : (afterRun first lefts next c).outcome = .error f) :
    (∃ x c', first c = ⟨.error f, x, c'⟩ ∧ (afterRun first lefts next c).dest = lefts x) ∨
      ∃ x c', first c = ⟨.ok (), x, c'⟩ ∧ afterRun first lefts next c = next x c' := by
  unfold afterRun at failed ⊢
  rcases run : first c with ⟨f' | u, x, c'⟩ <;> rw [run] at failed
  · cases failed
    exact .inl ⟨x, c', rfl, rfl⟩
  · exact .inr ⟨x, c', rfl, rfl⟩

/-- A run that fails, wherever that is, leaves the destination `d`. -/
def FaultsKeep (d : Datum) (run : Cursor → Decoded) : Prop :=
  ∀ c f, (run c).outcome = .error f → (run c).dest = d

variable {d : Datum} {run : Cursor → Decoded}

/-- What does not fail keeps the promise, -/
theorem faultsKeep_ok (x : Datum) : FaultsKeep d (ended (.ok ()) x) := nofun

/-- and so does what fails with the destination as it was. -/
theorem faultsKeep_error (f : Fault) : FaultsKeep d (ended (.error f) d) := fun _ _ _ => rfl

/-- A read changes no destination. -/
theorem faultsKeep_afterRead {r : Read α} {next : α → Cursor → Decoded}
    (each : ∀ a, FaultsKeep d (next a)) : FaultsKeep d (afterRead r d next) := by
  intro c f failed
  rcases afterRead_fault failed with ⟨-, kept⟩ | ⟨a, c', -, goes⟩
  · exact kept
  · rw [goes] at failed ⊢
    exact each a c' f failed

/-- A run into a destination of its own changes none either. -/
theorem faultsKeep_afterRun {first : Cursor → Decoded} {next : Datum → Cursor → Decoded}
    (each : ∀ x, FaultsKeep d (next x)) : FaultsKeep d (afterRun first (fun _ => d) next) := by
  intro c f failed
  rcases afterRun_fault failed with ⟨x, c', -, kept⟩ | ⟨x, c', -, goes⟩
  · exact kept
  · rw [goes] at failed ⊢
    exact each x c' f failed

end Decoded

/-! ## 2. Destinations that are left as they were -/

/-- Data of the type are assigned at once, when all of them is read. -/
def Ty.isAssigned : Ty → Bool
  | .bool | .number _ | .text | .bytes | .dynamic | .array _ _ | .timestamp | .clockTime => true
  | _ => false

namespace InPlace

open Decoded

variable {cx : Context} {d : Datum}

/-- What is assigned is assigned at the end. -/
theorem faultsKeep_replace (r : Read Datum) : FaultsKeep d (replace r d) := by
  rw [replace_eq]
  exact faultsKeep_afterRead fun x => faultsKeep_ok x

/-- An array is read apart and assigned if the length is right. -/
theorem faultsKeep_array (deeper : Option (Ty → InPlace)) (n : Nat) (t : Ty) (zero : Datum) :
    FaultsKeep d (array deeper n t zero d) := by
  rw [array_eq]
  refine faultsKeep_afterRead fun nil => ?_
  split
  · exact faultsKeep_ok _
  · refine faultsKeep_afterRun fun x => ?_
    split
    · exact faultsKeep_ok _
    · exact faultsKeep_error _

/-- A payload is received before anything is assigned. -/
theorem faultsKeep_extension (host : Host) : FaultsKeep d (extension cx host d) := by
  rw [extension_eq]
  refine faultsKeep_afterRead fun e => ?_
  rcases e with _ | ⟨tag, payload⟩
  · exact faultsKeep_ok _
  · dsimp only
    split
    · exact faultsKeep_ok _
    · exact faultsKeep_error _

/-- And so is a clock time. -/
theorem faultsKeep_clockTime : FaultsKeep d (clockTime cx d) := by
  rw [clockTime_eq]
  refine faultsKeep_afterRun fun x => ?_
  split
  · exact faultsKeep_ok _
  · exact faultsKeep_error _

end InPlace

open Decoded InPlace in
/-- **What is assigned in the end is left as it was by a fault.** -/
theorem Datum.faultsKeep_read {cx : Context} {n : Nat} {t : Ty} (assigned : t.isAssigned = true)
    (d : Datum) : FaultsKeep d (read cx n t d) := by
  rw [read_eq]
  cases t with
  | bool | number | text | bytes | dynamic => exact faultsKeep_replace _
  | array length t => exact faultsKeep_array _ length t _
  | timestamp => exact faultsKeep_extension .timestamp
  | clockTime => exact faultsKeep_clockTime
  | _ => cases assigned

/-! ## 3. What was read before a fault -/

namespace InPlace

/-- Reads into a fresh destination. -/
def fresh (r : InPlace) (zero : Datum) : Read Datum := fun c =>
  match r zero c with
  | ⟨.ok _, x, c⟩ => (.ok x, c)
  | ⟨.error f, _, c⟩ => (.error f, c)

/-- Reads one entry of a map into fresh destinations, behind a look at the header of its key. -/
def freshEntry (key value : InPlace) (keyZero valueZero : Datum) : Read (Datum × Datum) := do
  Read.checkKey
  let k ← key.fresh keyZero
  let v ← value.fresh valueZero
  return (k, v)

end InPlace

namespace Read

variable {α : Type}

/-- Of `n` values to come the read gives these, one after another, and at the next it fails. -/
inductive Stops (r : Read α) (f : Fault) : Nat → Cursor → List α → Prop
  | here {n : Nat} {c c' : Cursor} (failed : r c = (.error f, c')) : Stops r f (n + 1) c []
  | later {n : Nat} {c c' : Cursor} {a : α} {as : List α} (read : r c = (.ok a, c'))
      (rest : Stops r f n c' as) : Stops r f (n + 1) c (a :: as)

/-- What was read of the values that a header announces when the fault ended it all. -/
inductive Before (length : Read (Option Nat)) (item? : Option (Read α)) (f : Fault) (c : Cursor) :
    List α → Prop
  /-- No header announces any. -/
  | unannounced (none : ∀ n c', length c ≠ (.ok (some n), c')) : Before length item? f c []
  /-- There is no level left for them. -/
  | tooDeep {n : Nat} {c' : Cursor} (announced : length c = (.ok (some n), c'))
      (bottom : item? = none) (fault : f = .tooDeep maxDepth) : Before length item? f c []
  /-- They are read one level down. -/
  | stopped {n : Nat} {c' : Cursor} {r : Read α} {as : List α}
      (announced : length c = (.ok (some n), c')) (level : item? = some r)
      (stops : r.Stops f n (c'.retrace .down) as) : Before length item? f c as

variable {r : Read α} {f : Fault} {n : Nat} {c : Cursor} {as : List α}
  {length : Read (Option Nat)} {item? : Option (Read α)}

/-- What is read before a fault is all of what the read gives. -/
theorem Stops.forall {P : α → Prop} (stops : r.Stops f n c as) (gives : r.Gives P) :
    ∀ a ∈ as, P a := by
  induction stops with
  | here => nofun
  | later read _ ih => exact List.forall_mem_cons.2 ⟨gives _ _ _ read, ih⟩

/-- The same behind a header. -/
theorem Before.forall {P : α → Prop} (before : Before length item? f c as)
    (gives : ∀ r, item? = some r → r.Gives P) : ∀ a ∈ as, P a := by
  cases before with
  | unannounced | tooDeep => nofun
  | stopped _ level stops => exact stops.forall (gives _ level)

end Read

/-! ## 4. Lists and maps -/

namespace Decoded

open InPlace

variable {α β σ : Type} {f : Fault} {c : Cursor}

/-- To run into a fresh destination is to read. -/
theorem afterRun_fresh (r : InPlace) (zero left : Datum) (next : Datum → Cursor → Decoded) :
    afterRun (r zero) (fun _ => left) next = afterRead (r.fresh zero) left next := by
  funext c
  unfold afterRun afterRead fresh
  rcases r zero c with ⟨f | u, x, c'⟩ <;> rfl

/-- What follows two reads follows the second one. -/
theorem afterRead_bind (r : Read α) (g : α → Read β) (left : Datum)
    (next : β → Cursor → Decoded) :
    afterRead (r >>= g) left next = afterRead r left fun a => afterRead (g a) left next := by
  funext c
  unfold afterRead
  rw [Read.run_bind]
  rcases r c with ⟨f | a, c'⟩ <;> rfl

/-- **A run that takes one value after another stops with those it took before the fault.**  After
each of them it goes on with what `step` makes of it; a fault leaves what `left` makes of that. -/
theorem stops_of_fault {r : Read α} (run : Nat → σ → Cursor → Decoded) (left : σ → Datum)
    (step : σ → α → σ) (zero : ∀ s c, (run 0 s c).outcome = .ok ())
    (succ : ∀ n s, run (n + 1) s = afterRead r (left s) fun a => run n (step s a)) (n : Nat)
    (s : σ) (failed : (run n s c).outcome = .error f) :
    ∃ as, (run n s c).dest = left (as.foldl step s) ∧ r.Stops f n c as := by
  -- the state `s` is what came of the values before, so it is a different one each time
  induction n generalizing s c with
  | zero =>
    rw [zero] at failed
    cases failed
  | succ n ih =>
    rw [succ] at failed ⊢
    rcases afterRead_fault failed with ⟨⟨c', first⟩, kept⟩ | ⟨a, c', first, goes⟩
    · exact ⟨[], kept, .here first⟩
    · rw [goes] at failed ⊢
      obtain ⟨as, kept, stops⟩ := ih (step s a) failed
      exact ⟨a :: as, kept, .later first stops⟩

/-- The same behind a header that announces the values, one level down. -/
theorem before_of_fault {length : Read (Option Nat)} {deeper : Option β} {item : β → Read α}
    {run : β → Nat → Cursor → Decoded} {left : List α → Datum} {x : Datum}
    (each : ∀ b n c, (run b n c).outcome = .error f →
      ∃ as, (run b n c).dest = left as ∧ (item b).Stops f n c as)
    {whole : Cursor → Decoded}
    (eq : whole = afterRead length (left []) fun n =>
      match n with
      | none => ended (.ok ()) x
      | some n => descend deeper (left []) fun b => run b n)
    (failed : (whole c).outcome = .error f) :
    ∃ as, (whole c).dest = left as ∧ Read.Before length (deeper.map item) f c as := by
  rw [eq] at failed ⊢
  rcases afterRead_fault failed with ⟨⟨c', first⟩, kept⟩ | ⟨n, c', first, goes⟩
  · exact ⟨[], kept, .unannounced fun n c'' announced => nomatch first.symm.trans announced⟩
  · rw [goes] at failed ⊢
    cases n with
    | none => cases failed
    | some n =>
      cases deeper with
      | none =>
        cases failed
        exact ⟨[], rfl, .tooDeep first rfl rfl⟩
      | some b =>
        obtain ⟨as, kept, stops⟩ := each b n (c'.retrace .down) failed
        exact ⟨as, kept, .stopped first rfl stops⟩

end Decoded

namespace InPlace

open Decoded Read

variable {c : Cursor} {f : Fault} {zero d : Datum}

/-- The elements of a list stop at a fault with those before it. -/
theorem elements_stops (elem : InPlace) (n : Nat) (c : Cursor)
    (failed : (elements elem zero n [] c).outcome = .error f) :
    ∃ xs, (elements elem zero n [] c).dest = .seq xs ∧ (elem.fresh zero).Stops f n c xs := by
  obtain ⟨xs, left, stops⟩ := stops_of_fault (elements elem zero) (fun done => .seq done.reverse)
    (fun done x => x :: done) (fun _ _ => rfl)
    (fun n done => by rw [elements_succ, afterRun_fresh]) n [] failed
  refine ⟨xs, ?_, stops⟩
  rw [left, List.foldl_flip_cons_eq_append, List.append_nil, List.reverse_reverse, List.map_id']

/-- And so does the list. -/
theorem list_before {deeper : Option InPlace}
    (failed : (list deeper zero d c).outcome = .error f) :
    ∃ xs, (list deeper zero d c).dest = .seq xs ∧
      Before (arrayLength .array) (deeper.map fun r => r.fresh zero) f c xs :=
  before_of_fault (fun r n c failed => elements_stops r n c failed) (list_eq deeper zero d) failed

/-- A header under which bytes are taken at once announces no elements. -/
theorem not_announced_of_holdsBytes {b : UInt8} {rest : List UInt8} (next : c.rest = b :: rest)
    (bytes : holdsBytes (Header.ofByte b) = true) (n : Nat) (c' : Cursor) :
    arrayLength .array c ≠ (.ok (some n), c') := by
  intro announced
  obtain ⟨used, e, ⟨b', body, rfl, container, -⟩, -⟩ :=
    sound_arrayLength .array _ _ _ (parse_eq_some.2 announced)
  rw [next] at e
  obtain ⟨rfl, -⟩ := List.cons.inj e
  generalize Header.ofByte b = h at bytes container
  cases h with
  | fixArray | fixMap | array | map => cases bytes
  | _ => cases container

/-- A list of bytes is left alone as long as not even its header is known. -/
theorem byteList_before {deeper : Option InPlace}
    (failed : (byteList deeper zero d c).outcome = .error f) :
    (byteList deeper zero d c).dest = d ∨ ∃ xs, (byteList deeper zero d c).dest = .seq xs ∧
      Before (arrayLength .array) (deeper.map fun r => r.fresh zero) f c xs := by
  rw [byteList_eq] at failed ⊢
  rcases afterRead_fault failed with ⟨-, left⟩ | ⟨bh, c', peeked, goes⟩
  · exact .inl left
  · obtain ⟨rfl, header, rest, next⟩ := run_peekHeader (parse_eq_some.2 peeked)
    rw [goes] at failed ⊢
    -- the header was seen, and the list emptied
    refine .inr ?_
    split at failed
    · rename_i bytes
      rw [if_pos bytes]
      -- bytes that are taken at once announce no elements, so none is missing
      rw [header] at bytes
      rcases afterRead_fault failed with ⟨-, left⟩ | ⟨_, c', -, taken⟩
      · exact ⟨[], left, .unannounced (not_announced_of_holdsBytes next bytes)⟩
      · rw [taken] at failed
        cases failed
    · rename_i other
      rw [if_neg other]
      exact list_before failed

/-- A list of any type, then. -/
theorem sequence_before {deeper : Option (Ty → InPlace)} {t : Ty}
    (failed : (sequence deeper t zero d c).outcome = .error f) :
    (sequence deeper t zero d c).dest = d ∨ ∃ xs, (sequence deeper t zero d c).dest = .seq xs ∧
      Before (arrayLength .array) (deeper.map fun r => (r t).fresh zero) f c xs := by
  rw [sequence_eq] at failed ⊢
  split at failed
  · rename_i bytes
    rw [if_pos bytes]
    have before := byteList_before failed
    rwa [Option.map_map] at before
  · rename_i other
    rw [if_neg other]
    have before := list_before failed
    rw [Option.map_map] at before
    exact .inr before

/-- The entries of a map stop at a fault with those before it. -/
theorem bindings_stops {order : MapOrder} {keyZero valueZero : Datum} (key value : InPlace)
    (n : Nat) (c : Cursor)
    (failed : (bindings order key value keyZero valueZero n [] c).outcome = .error f) :
    ∃ es, (bindings order key value keyZero valueZero n [] c).dest = .map (order.bindAll es) ∧
      (freshEntry key value keyZero valueZero).Stops f n c es := by
  refine stops_of_fault (bindings order key value keyZero valueZero) .map
    (fun m (e : Datum × Datum) => order.insert e.1 e.2 m) (fun _ _ => rfl) (fun n done => ?_)
    n [] failed
  simp only [bindings_succ, afterRun_fresh, freshEntry, afterRead_bind]
  rfl

/-- And so does the map. -/
theorem map_before {deeper : Option (Ty → InPlace)} {order : MapOrder} {kt vt : Ty}
    {keyZero valueZero : Datum}
    (failed : (map deeper order kt vt keyZero valueZero d c).outcome = .error f) :
    ∃ es, (map deeper order kt vt keyZero valueZero d c).dest = .map (order.bindAll es) ∧
      Before (mapLength .map)
        (deeper.map fun r => freshEntry (r kt) (r vt) keyZero valueZero) f c es :=
  before_of_fault (fun r n c failed => bindings_stops (r kt) (r vt) n c failed)
    (map_eq deeper order kt vt keyZero valueZero d) failed

/-! ### Keys of entries -/

/-- What a read of its own gives is what the run leaves. -/
theorem gives_fresh {r : InPlace} {P : Datum → Prop} (each : ∀ c, P (r zero c).dest) :
    (r.fresh zero).Gives P := by
  intro c x c' run
  have left := each c
  unfold fresh at run
  rcases read : r zero c with ⟨f | u, y, last⟩ <;> rw [read] at run left
  · cases run
  · cases run
    exact left

/-- The keys that were read are of their type. -/
theorem gives_freshEntry {cx : Context} {r : Ty → InPlace} (keeps : KeepsTypes cx.catalog r)
    (kt vt : Ty) :
    (freshEntry (r kt) (r vt) (cx.catalog.initial kt) (cx.catalog.initial vt)).Gives
      fun e => cx.catalog.OfType kt e.1 := by
  refine (gives_true _).bind fun _ _ => Gives.bind (P := cx.catalog.OfType kt) ?_ fun k typed => ?_
  · exact gives_fresh fun c => keeps kt _ c (cx.catalog.ofType_initial kt)
  · exact (gives_true _).bind fun _ _ => gives_return typed

end InPlace

/-! ## 5. All types -/

/-- Lists, arrays and maps. -/
def Ty.isCollection : Ty → Bool
  | .list _ | .array _ _ | .map _ _ _ => true
  | _ => false

namespace Datum

open Decoded InPlace Read

variable {cx : Context} {n : Nat} {t : Ty} {d : Datum} {c : Cursor} {f : Fault}

/-- **Old elements and new ones are never mixed**: a reading of a collection that fails leaves every
destination as it was, or the same in every destination. -/
theorem unmixed_read (collection : t.isCollection = true)
    (failed : (read cx n t d c).outcome = .error f) :
    (∀ d', (read cx n t d' c).dest = d') ∨
      ∀ d', (read cx n t d' c).dest = (read cx n t d c).dest := by
  cases t with
  | list t =>
    simp only [read_eq, readStep, sequence_eq]
    split
    · simp only [byteList_eq, afterRead]
      rcases peekHeader c with ⟨f' | ⟨b, h⟩, c'⟩
      · exact .inl fun d' => rfl
      · exact .inr fun d' => rfl
    · exact .inr fun d' => rfl
  -- the fault is the same before any destination, so each of them is kept
  | array length t =>
    refine .inl fun d' => ?_
    have alike : Agree (read cx n (.array length t) d c) (read cx n (.array length t) d' c) :=
      agree_read rfl d d' c
    exact faultsKeep_read rfl d' c f (alike.outcome ▸ failed)
  | map order kt vt =>
    refine .inr fun d' => ?_
    rw [read_eq]
    rfl
  | _ => cases collection

/-- What a reading that fails leaves of the destination `d`. -/
structure Leaves (cx : Context) (n : Nat) (t : Ty) (d : Datum) (c : Cursor) (f : Fault)
    (left : Datum) : Prop where
  /-- What is assigned at once is left as it was. -/
  assigned : t.isAssigned = true → left = d
  /-- A list is left as it was, or it holds the elements that were read before the fault. -/
  list : ∀ e, t = .list e → left = d ∨ ∃ xs, left = .seq xs ∧
    Before (arrayLength .array)
      ((oneDown cx n).map fun r => (r e).fresh (cx.catalog.initial e)) f c xs
  /-- A map holds what the entries make that were read before the fault, the last one of each key
  winning. -/
  map : ∀ order kt vt, t = .map order kt vt → ∃ es, left = .map (order.bindAll es) ∧
    Before (mapLength .map) ((oneDown cx n).map fun r =>
      freshEntry (r kt) (r vt) (cx.catalog.initial kt) (cx.catalog.initial vt)) f c es ∧
    (cx.registry.Typed cx.catalog → order.LastWins es (order.bindAll es))
  /-- Whatever the destination held, a collection is left as it was, or the same is left. -/
  unmixed : t.isCollection = true →
    (∀ d', (read cx n t d' c).dest = d') ∨ ∀ d', (read cx n t d' c).dest = left

/-- Whatever a reading that fails leaves, it leaves as `Leaves` says. -/
theorem leaves_read (failed : (read cx n t d c).outcome = .error f) :
    Leaves cx n t d c f (read cx n t d c).dest where
  assigned assigned := faultsKeep_read assigned d c f failed
  list e is := by
    subst is
    rw [read_eq, readStep] at failed ⊢
    exact sequence_before failed
  map order kt vt is := by
    subst is
    rw [read_eq, readStep] at failed ⊢
    obtain ⟨es, left, before⟩ := map_before failed
    refine ⟨es, left, before, fun typed => ?_⟩
    refine MapOrder.lastWins_bindAll (cx.catalog.comparable_ofType kt) ?_
    refine before.forall fun item known => ?_
    obtain ⟨r, level, rfl⟩ := Option.map_eq_some_iff.1 known
    exact gives_freshEntry (keepsTypes_oneDown typed level) kt vt
  unmixed collection := unmixed_read collection failed

end Datum

/-! ## 6. Codecs -/

namespace Codec

open Datum

/-- **What a failed decoding leaves.**  Reading that fails, anywhere in an input and however deep,
leaves a destination as `Datum.Leaves` says: what is assigned at once as it was, a list as it was or
with the elements read before the fault, a map with the entries read before it, old and new never
mixed.  Decoding that fails either read all it was to read and faults on what is left over, or it
leaves just that. -/
theorem decodeInto_leaves (c : Codec) (mode : Mode) (t : Ty) (d : Datum) :
    (∀ n cursor f, (d.read (c.context mode) n t cursor).outcome = .error f →
      Leaves (c.context mode) n t d cursor f (d.read (c.context mode) n t cursor).dest) ∧
    ∀ input f, (c.decodeInto t d input mode).1 = .error f →
      (d.read (c.context mode) maxDepth t (.start input)).outcome = .ok () ∧
          (∃ remaining, f = .trailing remaining) ∨
        Leaves (c.context mode) maxDepth t d (.start input) f
          (c.decodeInto t d input mode).2.1 := by
  refine ⟨fun n cursor f failed => leaves_read failed, fun input f failed => ?_⟩
  unfold decodeInto settle reading at failed ⊢
  rcases run : d.read (c.context mode) maxDepth t (.start input) with
    ⟨f' | ⟨⟩, left, position, _ | ⟨byte, rest⟩, known⟩ <;> rw [run] at failed
  · cases failed
    have leaves := leaves_read (f := f) (by rw [run])
    rw [run] at leaves
    exact .inr leaves
  · cases failed
    have leaves := leaves_read (f := f) (by rw [run])
    rw [run] at leaves
    exact .inr leaves
  · cases failed
  · cases failed
    exact .inl ⟨rfl, _, rfl⟩

/-- Three truth values are announced and the third is a number.  In a list the two before it are
left and nothing of what stood there, the array that was to take them is left as it was.  Of a map
what came last for a key is left. -/
theorem decodeInto_leaves_bools :
    let c := fresh ⟨[], rfl, rfl⟩
    let old : Datum := .seq [.bool true, .bool true, .bool true]
    let bools : List UInt8 := [0x93, 0xc2, 0xc3, 5]
    let entries : List UInt8 := [0x83, 0xc2, 0xc2, 0xc2, 0xc3, 0xc3, 5]
    let f := Fault.format 5 .bool
    ((c.decodeInto (.list .bool) old bools .named).1 = .error f ∧
      ∃ xs, (c.decodeInto (.list .bool) old bools .named).2.1 = .seq xs ∧
        Read.Before (Read.arrayLength .array)
          ((Datum.oneDown (c.context .named) maxDepth).map fun r => (r .bool).fresh (.bool false))
          f (.start bools) xs) ∧
    ((c.decodeInto (.array 3 .bool) old bools .named).1 = .error f ∧
      (c.decodeInto (.array 3 .bool) old bools .named).2.1 = old) ∧
    (c.decodeInto (.map .sorted .bool .bool) (.map []) entries .named).1 = .error f ∧
      ∃ es, (c.decodeInto (.map .sorted .bool .bool) (.map []) entries .named).2.1 =
          .map (MapOrder.sorted.bindAll es) ∧
        MapOrder.sorted.LastWins es (MapOrder.sorted.bindAll es) := by
  intro c old bools entries f
  have list : (c.decodeInto (.list .bool) old bools .named).1 = .error f := rfl
  have array : (c.decodeInto (.array 3 .bool) old bools .named).1 = .error f := rfl
  have map : (c.decodeInto (.map .sorted .bool .bool) (.map []) entries .named).1 = .error f := rfl
  refine ⟨⟨list, ?_⟩, ⟨array, ?_⟩, map, ?_⟩
  · rcases (c.decodeInto_leaves .named (.list .bool) old).2 bools f list with ⟨ended, -⟩ | leaves
    · cases ended
    · rcases leaves.list .bool rfl with same | known
      · have left : (c.decodeInto (.list .bool) old bools .named).2.1 =
          .seq [.bool false, .bool true] := rfl
        exact absurd (left.symm.trans same) (by simp [old])
      · exact known
  · rcases (c.decodeInto_leaves .named (.array 3 .bool) old).2 bools f array with
      ⟨ended, -⟩ | leaves
    · cases ended
    · exact leaves.assigned rfl
  · rcases (c.decodeInto_leaves .named (.map .sorted .bool .bool) (.map [])).2 entries f map with
      ⟨ended, -⟩ | leaves
    · cases ended
    · obtain ⟨es, left, -, wins⟩ := leaves.map .sorted .bool .bool rfl
      exact ⟨es, left, wins (Registry.typed_initial _)⟩

end Codec

end MessagePack
