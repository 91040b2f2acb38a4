import MessagePack.Decode.Cursor
/-!
# Skipping

`Read.skip` consumes one complete wire value without building it, by the length rules of its parts
alone.  It counts the values that are still owed, so neither depth nor content matters: a deep
value, a container used as a key or a text that is no UTF-8 is passed over like any other.

Main statement: `Read.skipHead_shrinks`, each value owed takes at least its header from the input.
-/

namespace MessagePack.Read

/-- Consumes what belongs to a header alone, and says how many values it owes. -/
def skipBody (b : UInt8) : Header → Read Nat
  | .nil | .bool _ | .posFix _ | .negFix _ => return 0
  | .uint w | .int w => do
    let _ ← takeMany w.bytes
    return 0
  | .single => do
    let _ ← takeMany 4
    return 0
  | .double => do
    let _ ← takeMany 8
    return 0
  | .fixText n => do
    let _ ← takeMany n
    return 0
  | .text w | .bin w => do
    let n ← takeUnsigned w
    let _ ← takeMany n
    return 0
  | .fixArray n => return n.val
  | .array w => takeUnsigned w
  | .fixMap n => return 2 * n.val
  | .map w => do
    let n ← takeUnsigned w
    return 2 * n
  | .fixExt p => do
    let _ ← takeMany (1 + Header.extLength p)
    return 0
  | .ext w => do
    let n ← takeUnsigned w
    let _ ← takeMany (1 + n)
    return 0
  | .unused => fail (.format b .dynamic)

/-- Consumes a header and what belongs to it alone, and says how many values it owes. -/
def skipHead : Read Nat := do
  let (b, h) ← takeHeader
  skipBody b h

theorem advances_skipBody (b : UInt8) (h : Header) : Advances (skipBody b h) := by
  have fixed : ∀ n : Nat, Advances (do let _ ← takeMany n; return 0 : Read Nat) := fun n =>
    (advances_takeMany n).bind fun _ => advances_return 0
  have counted : ∀ (w : Width) (f : Nat → Nat),
      Advances (do let n ← takeUnsigned w; let _ ← takeMany (f n); return 0 : Read Nat) :=
    fun w f => (advances_takeUnsigned w).bind fun n => fixed (f n)
  cases h with
  | nil | bool | posFix | negFix | fixArray | fixMap => exact advances_return _
  | uint w | int w => exact fixed _
  | single | double | fixText | fixExt => exact fixed _
  | text w | bin w => exact counted w id
  | ext w => exact counted w (1 + ·)
  | array w => exact advances_takeUnsigned w
  | map w => exact (advances_takeUnsigned w).bind fun _ => advances_return _
  | unused => exact advances_fail _

/-- **A value that was consumed took at least its header from the input.** -/
theorem skipHead_shrinks {c c' : Cursor} {n : Nat} (h : skipHead c = (.ok n, c')) :
    c'.rest.length < c.rest.length := by
  obtain ⟨position, rest, consulted⟩ := c
  cases rest with
  | nil => simp [skipHead, takeHeader, takeByte, run_bind] at h
  | cons b rest =>
    have e : skipHead ⟨position, b :: rest, consulted⟩ =
        skipBody b (Header.ofByte b) ⟨position + 1, rest, consulted⟩ := rfl
    obtain ⟨k, -, hk⟩ := advances_skipBody b (Header.ofByte b) ⟨position + 1, rest, consulted⟩
    rw [← e, h] at hk
    simp only at hk
    subst hk
    simp only [Cursor.advance, List.length_drop, List.length_cons]
    omega

/-- Consumes as many complete values as are owed. -/
def skipOwed (owed : Nat) (c : Cursor) : Except Fault Unit × Cursor :=
  match owed with
  | 0 => (.ok (), c)
  | owed + 1 =>
    match _h : skipHead c with
    | (.ok more, c') => skipOwed (owed + more) c'
    | (.error f, c') => (.error f, c')
termination_by c.rest.length
decreasing_by exact skipHead_shrinks _h

/-- Consumes one complete value. -/
def skip : Read Unit := skipOwed 1

end MessagePack.Read
