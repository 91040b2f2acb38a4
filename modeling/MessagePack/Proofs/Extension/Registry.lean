import MessagePack.Extension.Registry
/-!
# Registries pair tags with hosts

A registry keeps its bindings in two tables, one by host and one by tag, and each call looks at a
part of them: adding asks both tables, removing asks only the one by tag before it takes an entry
out of either.  That is enough because the tables always agree: a binding stands under its own tag
exactly if it stands under its own host.  So a registry is a partial bijection between tags and
hosts, and timestamps keep their place in it.

`Registry.Change` is one call, `Registry.after` any number of them.  Main statements:
`Registry.register_cases` and `Registry.unregister_cases`, everything that a call can do, and
`Registry.bijection_after`.
-/

namespace MessagePack.Registry

variable {r : Registry} {b : Binding} {tag : Int8} {host : Host}

/-! ## 1. Entering and taking out -/

theorem lookup_filter {α β : Type} [BEq α] [LawfulBEq α] (l : List (α × β)) (k j : α) :
    (l.filter (·.1 != k)).lookup j = if j == k then none else l.lookup j := by
  induction l with
  | nil => simp
  | cons e rest ih =>
    obtain ⟨a, b⟩ := e
    by_cases same : a = k
    · subst same
      rw [List.filter_cons_of_neg (by simp), ih, List.lookup_cons]
      cases j == a <;> rfl
    · rw [List.filter_cons_of_pos (by simpa using same), List.lookup_cons, List.lookup_cons, ih]
      cases first : j == a with
      | false => rfl
      | true =>
        have : (j == k) = false := by
          obtain rfl := eq_of_beq first
          simpa using same
        simp [this]

/-- A binding is found by its host, -/
theorem forHost?_insert (r : Registry) (b : Binding) (h : Host) :
    (r.insert b).forHost? h = if h = b.host then some b else r.forHost? h := by
  simp only [forHost?, insert, List.lookup_cons]
  by_cases same : h = b.host
  · simp [same]
  · rw [if_neg same, beq_eq_false_iff_ne.2 same]

/-- and by its tag. -/
theorem forTag?_insert (r : Registry) (b : Binding) (t : Int8) :
    (r.insert b).forTag? t = if t = b.tag then some b else r.forTag? t := by
  simp only [forTag?, insert, List.lookup_cons]
  by_cases same : t = b.tag
  · simp [same]
  · rw [if_neg same, beq_eq_false_iff_ne.2 same]

/-- The registry with nothing under a tag and nothing under a host. -/
def remove (r : Registry) (tag : Int8) (host : Host) : Registry :=
  ⟨r.byHost.filter (·.1 != host), r.byTag.filter (·.1 != tag)⟩

/-- One that is removed is found by neither. -/
theorem forHost?_remove (r : Registry) (tag : Int8) (host h : Host) :
    (r.remove tag host).forHost? h = if h = host then none else r.forHost? h := by
  rw [forHost?, remove, lookup_filter]
  simp only [beq_iff_eq, forHost?]

theorem forTag?_remove (r : Registry) (tag t : Int8) (host : Host) :
    (r.remove tag host).forTag? t = if t = tag then none else r.forTag? t := by
  rw [forTag?, remove, lookup_filter]
  simp only [beq_iff_eq, forTag?]

/-- The timestamp's tag and host are reserved. -/
theorem isReserved_eq_true :
    isReserved tag host = true ↔ tag = Binding.timestampTag ∨ host = .timestamp := by
  rw [isReserved, Bool.or_eq_true, beq_iff_eq, beq_iff_eq]

/-! ## 2. Agreement of the tables -/

/-- The two tables of a registry agree, and timestamps have their own binding in both. -/
structure Consistent (r : Registry) : Prop where
  byHost : ∀ {h b}, r.forHost? h = some b → b.host = h ∧ r.forTag? b.tag = some b
  byTag : ∀ {t b}, r.forTag? t = some b → b.tag = t ∧ r.forHost? b.host = some b
  timestamp : r.forHost? .timestamp = some .timestamp

/-- A registry starts with tables that agree. -/
theorem consistent_initial : initial.Consistent := by
  have host : ∀ {h b}, initial.forHost? h = some b → h = .timestamp ∧ b = .timestamp := by
    intro h b found
    simp only [initial, forHost?_insert] at found
    split at found
    · rename_i e
      exact ⟨e, (Option.some.inj found).symm⟩
    · cases found
  have tag : ∀ {t b}, initial.forTag? t = some b → t = Binding.timestampTag ∧ b = .timestamp := by
    intro t b found
    simp only [initial, forTag?_insert] at found
    split at found
    · rename_i e
      exact ⟨e, (Option.some.inj found).symm⟩
    · cases found
  refine ⟨fun found => ?_, fun found => ?_, rfl⟩
  · obtain ⟨rfl, rfl⟩ := host found
    exact ⟨rfl, rfl⟩
  · obtain ⟨rfl, rfl⟩ := tag found
    exact ⟨rfl, rfl⟩

namespace Consistent

/-- **A binding stands under its tag exactly if it stands under its host.** -/
theorem forTag?_eq_some (con : r.Consistent) :
    r.forTag? tag = some b ↔ b.tag = tag ∧ r.forHost? b.host = some b := by
  constructor
  · exact con.byTag
  · rintro ⟨rfl, hosted⟩
    exact (con.byHost hosted).2

theorem forHost?_eq_some (con : r.Consistent) :
    r.forHost? host = some b ↔ b.host = host ∧ r.forTag? b.tag = some b := by
  constructor
  · exact con.byHost
  · rintro ⟨rfl, tagged⟩
    exact (con.byTag tagged).2

/-- The timestamp is always bound to its tag. -/
theorem forTag?_timestamp (con : r.Consistent) :
    r.forTag? Binding.timestampTag = some .timestamp :=
  (con.byHost con.timestamp).2

/-- A binding whose tag and host are free keeps the tables in agreement. -/
theorem insert (con : r.Consistent) (tag : r.forTag? b.tag = none)
    (host : r.forHost? b.host = none) : (r.insert b).Consistent := by
  refine ⟨?_, ?_, ?_⟩
  · intro h b' found
    rw [forHost?_insert] at found
    split at found
    · cases found
      rename_i e
      exact ⟨e.symm, by rw [forTag?_insert, if_pos rfl]⟩
    · obtain ⟨own, other⟩ := con.byHost found
      refine ⟨own, ?_⟩
      rw [forTag?_insert, if_neg, other]
      -- the tag was free, so nothing else can have been bound to it
      intro same
      rw [same, tag] at other
      cases other
  · intro t b' found
    rw [forTag?_insert] at found
    split at found
    · cases found
      rename_i e
      exact ⟨e.symm, by rw [forHost?_insert, if_pos rfl]⟩
    · obtain ⟨own, other⟩ := con.byTag found
      refine ⟨own, ?_⟩
      rw [forHost?_insert, if_neg, other]
      intro same
      rw [same, host] at other
      cases other
  · rw [forHost?_insert, if_neg, con.timestamp]
    intro same
    rw [← same, con.timestamp] at host
    cases host

/-- Taking out the binding of a tag and a host, not the one of timestamps, keeps the tables in
agreement. -/
theorem remove (con : r.Consistent) (found : r.forTag? b.tag = some b)
    (open' : b.host ≠ .timestamp) : (r.remove b.tag b.host).Consistent := by
  have hosted := (con.byTag found).2
  refine ⟨?_, ?_, ?_⟩
  · intro h b' other
    rw [forHost?_remove, Option.ite_none_left_eq_some] at other
    obtain ⟨own, tagged⟩ := con.byHost other.2
    refine ⟨own, ?_⟩
    rw [forTag?_remove, if_neg, tagged]
    intro same
    rw [same, found] at tagged
    cases tagged
    exact other.1 own.symm
  · intro t b' other
    rw [forTag?_remove, Option.ite_none_left_eq_some] at other
    obtain ⟨own, hosted'⟩ := con.byTag other.2
    refine ⟨own, ?_⟩
    rw [forHost?_remove, if_neg, hosted']
    intro same
    rw [same, hosted] at hosted'
    cases hosted'
    exact other.1 own.symm
  · rw [forHost?_remove, if_neg open'.symm, con.timestamp]

end Consistent

/-! ## 3. What a call can do -/

/-- A binding can be added: its tag and its host are neither those of timestamps nor claimed. -/
structure Admits (r : Registry) (b : Binding) : Prop where
  tag : b.tag ≠ Binding.timestampTag
  host : b.host ≠ .timestamp
  freeTag : r.forTag? b.tag = none
  freeHost : r.forHost? b.host = none

/-- One binding stands under the tag and under the host. -/
def Binds (r : Registry) (tag : Int8) (host : Host) : Prop :=
  ∃ b : Binding, b.tag = tag ∧ b.host = host ∧ r.forTag? tag = some b ∧ r.forHost? host = some b

/-- **Adding enters a binding that can be added, and changes nothing otherwise.** -/
theorem register_cases (r : Registry) (b : Binding) :
    (r.Admits b ∧ r.register b = (true, r.insert b)) ∨
      (¬ r.Admits b ∧ r.register b = (false, r)) := by
  unfold register
  by_cases reserved : isReserved b.tag b.host = true
  · rw [if_pos reserved]
    refine .inr ⟨fun admits => ?_, rfl⟩
    exact (isReserved_eq_true.1 reserved).elim admits.tag admits.host
  · rw [if_neg reserved]
    rw [isReserved_eq_true, not_or] at reserved
    by_cases free : ((r.forTag? b.tag).isNone && (r.forHost? b.host).isNone) = true
    · rw [if_pos free]
      simp only [Bool.and_eq_true, Option.isNone_iff_eq_none] at free
      exact .inl ⟨⟨reserved.1, reserved.2, free.1, free.2⟩, rfl⟩
    · rw [if_neg free]
      refine .inr ⟨fun admits => free ?_, rfl⟩
      rw [admits.freeTag, admits.freeHost]
      rfl

/-- **Removing takes out a pair that is bound and is not that of timestamps, and changes nothing
otherwise.**  That the binding found under the tag also stands under its host is what the agreement
of the tables adds. -/
theorem unregister_cases (con : r.Consistent) (tag : Int8) (host : Host) :
    (r.Binds tag host ∧ (tag, host) ≠ (Binding.timestampTag, .timestamp) ∧
        r.unregister tag host = (true, r.remove tag host)) ∨
      (¬ (r.Binds tag host ∧ (tag, host) ≠ (Binding.timestampTag, .timestamp)) ∧
        r.unregister tag host = (false, r)) := by
  unfold unregister
  by_cases reserved : isReserved tag host = true
  · rw [if_pos reserved]
    refine .inr ⟨?_, rfl⟩
    rintro ⟨⟨b, rfl, rfl, tagged, hosted⟩, other⟩
    -- under either half of the reserved pair stands the binding of timestamps
    have same : b = .timestamp := by
      rcases isReserved_eq_true.1 reserved with e | e
      · rw [e, con.forTag?_timestamp] at tagged
        exact (Option.some.inj tagged).symm
      · rw [e, con.timestamp] at hosted
        exact (Option.some.inj hosted).symm
    rw [same] at other
    exact other rfl
  · rw [if_neg reserved]
    rw [isReserved_eq_true, not_or] at reserved
    cases found : r.forTag? tag with
    | none =>
      refine .inr ⟨?_, rfl⟩
      rintro ⟨⟨b, -, -, tagged, -⟩, -⟩
      rw [found] at tagged
      cases tagged
    | some b =>
      obtain ⟨own, hosted⟩ := con.byTag found
      by_cases same : b.host = host
      · dsimp only
        rw [if_pos same]
        rw [same] at hosted
        exact .inl ⟨⟨b, own, same, found, hosted⟩, fun e => reserved.1 (Prod.mk.inj e).1, rfl⟩
      · dsimp only
        rw [if_neg same]
        refine .inr ⟨?_, rfl⟩
        rintro ⟨⟨b', -, own', tagged, -⟩, -⟩
        cases found.symm.trans tagged
        exact same own'

theorem Consistent.register (con : r.Consistent) (b : Binding) : (r.register b).2.Consistent := by
  rcases r.register_cases b with ⟨admits, done⟩ | ⟨-, done⟩
  · rw [done]
    exact con.insert admits.freeTag admits.freeHost
  · rw [done]
    exact con

theorem Consistent.unregister (con : r.Consistent) (tag : Int8) (host : Host) :
    (r.unregister tag host).2.Consistent := by
  rcases unregister_cases con tag host with ⟨⟨b, rfl, rfl, tagged, -⟩, other, done⟩ | ⟨-, done⟩
  · rw [done]
    refine con.remove tagged fun e => other ?_
    rw [← (con.byTag tagged).1, e]
    have hosted := (con.byTag tagged).2
    rw [e, con.timestamp] at hosted
    cases hosted
    rfl
  · rw [done]
    exact con

/-! ## 4. Any number of calls -/

/-- A call that may change a registry. -/
inductive Change where
  | register (b : Binding)
  | unregister (tag : Int8) (host : Host)

/-- Makes one call. -/
def change (r : Registry) : Change → Bool × Registry
  | .register b => r.register b
  | .unregister tag host => r.unregister tag host

/-- The registry after some calls. -/
def after (r : Registry) (changes : List Change) : Registry :=
  changes.foldl (fun r ch => (r.change ch).2) r

theorem Consistent.change (con : r.Consistent) (ch : Change) : (r.change ch).2.Consistent := by
  cases ch with
  | register b => exact con.register b
  | unregister tag host => exact con.unregister tag host

/-- A refused call changes nothing. -/
theorem Consistent.change_refused (con : r.Consistent) {ch : Change}
    (refused : (r.change ch).1 = false) : (r.change ch).2 = r := by
  cases ch with
  | register b =>
    rcases r.register_cases b with ⟨-, done⟩ | ⟨-, done⟩
    · exact absurd refused (by simp [Registry.change, done])
    · simp [Registry.change, done]
  | unregister tag host =>
    rcases unregister_cases con tag host with ⟨-, -, done⟩ | ⟨-, done⟩
    · exact absurd refused (by simp [Registry.change, done])
    · simp [Registry.change, done]

theorem Consistent.after (con : r.Consistent) (changes : List Change) :
    (r.after changes).Consistent := by
  induction changes generalizing r with
  | nil => exact con
  | cons ch changes ih => exact ih (con.change ch)

/-- **Whatever calls were made on a new registry, it pairs tags with hosts, and timestamps stay
bound.**  A call answers whether it did anything; what it does is to add or to take out one pair,
in both tables. -/
theorem bijection_after (changes : List Change) :
    let r := initial.after changes
    (∀ tag b, r.forTag? tag = some b ↔ b.tag = tag ∧ r.forHost? b.host = some b) ∧
      (∀ host b, r.forHost? host = some b ↔ b.host = host ∧ r.forTag? b.tag = some b) ∧
      r.forTag? Binding.timestampTag = some .timestamp ∧
      r.forHost? .timestamp = some .timestamp ∧
      (∀ b,
        ((r.register b).1 = true ↔ b.tag ≠ Binding.timestampTag ∧ b.host ≠ .timestamp ∧
          r.forTag? b.tag = none ∧ r.forHost? b.host = none) ∧
        ((r.register b).1 = true →
          (∀ t, (r.register b).2.forTag? t = if t = b.tag then some b else r.forTag? t) ∧
          ∀ h, (r.register b).2.forHost? h = if h = b.host then some b else r.forHost? h) ∧
        ((r.register b).1 = false → (r.register b).2 = r)) ∧
      ∀ tag host,
        ((r.unregister tag host).1 = true ↔
          (∃ b : Binding, b.tag = tag ∧ b.host = host ∧ r.forTag? tag = some b ∧
            r.forHost? host = some b) ∧ (tag, host) ≠ (Binding.timestampTag, .timestamp)) ∧
        ((r.unregister tag host).1 = true →
          (∀ t, (r.unregister tag host).2.forTag? t = if t = tag then none else r.forTag? t) ∧
          ∀ h, (r.unregister tag host).2.forHost? h = if h = host then none else r.forHost? h) ∧
        ((r.unregister tag host).1 = false → (r.unregister tag host).2 = r) := by
  intro r
  have con : r.Consistent := consistent_initial.after changes
  refine ⟨fun _ _ => con.forTag?_eq_some, fun _ _ => con.forHost?_eq_some, con.forTag?_timestamp,
    con.timestamp, fun b => ?_, fun tag host => ?_⟩
  · rcases r.register_cases b with ⟨admits, done⟩ | ⟨refused, done⟩
    · rw [done]
      exact ⟨iff_of_true rfl ⟨admits.tag, admits.host, admits.freeTag, admits.freeHost⟩,
        fun _ => ⟨r.forTag?_insert b, r.forHost?_insert b⟩, fun no => nomatch no⟩
    · rw [done]
      refine ⟨iff_of_false Bool.false_ne_true ?_,
        fun no => absurd no Bool.false_ne_true, fun _ => rfl⟩
      rintro ⟨tag, host, freeTag, freeHost⟩
      exact refused ⟨tag, host, freeTag, freeHost⟩
  · rcases unregister_cases con tag host with ⟨binds, other, done⟩ | ⟨refused, done⟩
    · rw [done]
      exact ⟨iff_of_true rfl ⟨binds, other⟩,
        fun _ => ⟨(r.forTag?_remove tag · host), r.forHost?_remove tag host⟩, fun no => nomatch no⟩
    · rw [done]
      exact ⟨iff_of_false Bool.false_ne_true refused, fun no => absurd no Bool.false_ne_true,
        fun _ => rfl⟩

end MessagePack.Registry
