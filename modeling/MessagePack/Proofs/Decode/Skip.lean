import MessagePack.Proofs.Decode.Single
/-!
# Skipping takes complete values

`Read.skip` counts what is owed.  On whatever it succeeds it took one complete value, of any
nesting, and it takes every complete value.

Main statements: `Read.takes_skip` and `Read.sound_skip`.
-/

namespace MessagePack.Read

open Parse Header

variable {b : UInt8} {h : Header} {body u v : List UInt8} {k n m owed : Nat}

/-! ## 1. One header -/

theorem takes_skipBody (own : h.Owes body owed) : (skipBody b h).parse.Takes body owed := by
  -- three shapes: so many bytes, a size and that many bytes, a count of values
  have fixed : ∀ {n : Nat}, body.length = n →
      (do let _ ← takeMany n; return 0 : Read Nat).parse.Takes body 0 := by
    rintro _ rfl
    simp only [parse_bind, parse_pure]
    exact (takes_takeMany body).map (g := fun _ => 0)
  have counted : ∀ {w : Width} {f : Nat → Nat}, (∃ size rest, body = size ++ rest ∧
      size.length = w.bytes ∧ rest.length = f (ofBigEndian size) ∧ owed = 0) →
      (do let n ← takeUnsigned w; let _ ← takeMany (f n); return 0 : Read Nat).parse.Takes body
        0 := by
    rintro w f ⟨size, rest, rfl, width, length, -⟩
    simp only [parse_bind, parse_pure]
    refine (takes_takeUnsigned width).bind ?_
    rw [← length]
    exact (takes_takeMany rest).map (g := fun _ => 0)
  cases h with
  | nil | bool | posFix | negFix | fixArray | fixMap =>
    obtain ⟨rfl, rfl⟩ := own
    exact takes_pure _
  | uint | int | single | double | fixText | fixExt =>
    obtain ⟨width, rfl⟩ := own
    exact fixed width
  | text w | bin w =>
    have zero := own.eq_zero rfl
    subst zero
    exact counted (f := id) own
  | ext w =>
    have zero := own.eq_zero rfl
    subst zero
    exact counted (f := (1 + ·)) own
  | array w =>
    obtain ⟨width, rfl⟩ := own
    exact takes_takeUnsigned width
  | map w =>
    obtain ⟨width, rfl⟩ := own
    simp only [skipBody, parse_bind, parse_pure]
    exact (takes_takeUnsigned width).map (g := (2 * ·))
  | unused => exact own.elim

/-- Whatever a header's body is skipped as, it owes as many values as it says. -/
theorem sound_skipBody (b : UInt8) (h : Header) :
    (skipBody b h).parse.Sound fun u n => h.Owes u n := by
  cases h with
  | nil | bool | posFix | negFix | fixArray | fixMap => exact sound_pure ⟨rfl, rfl⟩
  | uint | int | single | double | fixText | fixExt =>
    simp only [skipBody, parse_bind, parse_pure]
    refine (sound_takeMany _).map ?_
    rintro u bs ⟨rfl, length⟩
    exact ⟨length, rfl⟩
  | text w | bin w =>
    have sized := sound_sized w 0
    simp only [Nat.zero_add] at sized
    simp only [skipBody, parse_bind, parse_pure, ← bind_assoc]
    refine sized.map ?_
    rintro u bs ⟨size, rfl, width, length⟩
    exact ⟨size, bs, rfl, width, length, rfl⟩
  | ext w =>
    simp only [skipBody, parse_bind, parse_pure, ← bind_assoc]
    refine (sound_sized w 1).map ?_
    rintro u bs ⟨size, rfl, width, length⟩
    exact ⟨size, bs, rfl, width, length, rfl⟩
  | array w =>
    refine (sound_takeUnsigned w).mono ?_
    rintro u n ⟨width, rfl⟩
    exact ⟨width, rfl⟩
  | map w =>
    simp only [skipBody, parse_bind, parse_pure]
    refine (sound_takeUnsigned w).map ?_
    rintro u n ⟨width, rfl⟩
    exact ⟨width, rfl⟩
  | unused => exact sound_failure

/-- A header with its body is skipped. -/
theorem takes_skipHead (own : (ofByte b).Owes body owed) :
    skipHead.parse.Takes (b :: body) owed := by
  unfold skipHead
  rw [parse_bind, ← toByte_ofByte b]
  exact takes_header (stands_ofByte b) (takes_skipBody own)

/-- And nothing else is. -/
theorem sound_skipHead :
    skipHead.parse.Sound fun u n => ∃ b body, u = b :: body ∧ (ofByte b).Owes body n := by
  unfold skipHead
  rw [parse_bind]
  exact sound_header fun b => sound_skipBody b (ofByte b)

/-! ## 2. Values owed -/

theorem skipOwed_succ (owed : Nat) (c : Cursor) :
    skipOwed (owed + 1) c =
      match skipHead c with
      | (.ok more, c') => skipOwed (owed + more) c'
      | (.error f, c') => (.error f, c') := by
  rw [skipOwed]
  split <;> simp_all

/-- A value that is owed is paid by its header and what that owes. -/
theorem parse_skipOwed_succ (owed : Nat) :
    parse (skipOwed (owed + 1)) =
      skipHead.parse >>= fun more => parse (skipOwed (owed + more)) := by
  funext c
  change parse (skipOwed (owed + 1)) c = (skipHead.parse c).bind _
  unfold parse
  rw [skipOwed_succ]
  cases skipHead c with
  | mk outcome c' => cases outcome <;> rfl

/-- Complete values are skipped, and the rest of what is owed behind them. -/
theorem takes_skipOwed (complete : Complete k n u) (rest : (parse (skipOwed m)).Takes v ()) :
    (parse (skipOwed (n + m))).Takes (u ++ v) () := by
  induction complete generalizing m v with
  | none => rwa [Nat.zero_add]
  | @flat k n b body later flat own next ih =>
    rw [Nat.add_right_comm, parse_skipOwed_succ, List.cons_append, List.append_assoc]
    exact (takes_skipHead own).bind (ih rest)
  | @deep k n owed b body inside later deep own inner next ihi ihn =>
    rw [Nat.add_right_comm, parse_skipOwed_succ]
    have inside' := ihi (ihn rest)
    rw [Nat.add_comm] at inside'
    have whole := (takes_skipHead own).bind (f := fun more => parse (skipOwed (n + m + more)))
      inside'
    simpa only [List.cons_append, List.append_assoc] using whole

/-- **Every complete value is skipped.** -/
theorem takes_skip (complete : Complete k 1 u) : skip.parse.Takes u () := by
  have done : (parse (skipOwed 0)).Takes [] () := by
    intro position rest known
    refine ⟨known, parse_eq_some.2 ?_⟩
    rw [skipOwed]
    rfl
  have whole := takes_skipOwed complete done
  rwa [List.append_nil] at whole

/-- **What is skipped is as many complete values as were owed.** -/
theorem skipOwed_complete (owed : Nat) (c c' : Cursor) (run : skipOwed owed c = (.ok (), c')) :
    ∃ used k, c.rest = used ++ c'.rest ∧ Complete k owed used := by
  match owed with
  | 0 =>
    rw [skipOwed] at run
    cases run
    exact ⟨[], 0, rfl, .none⟩
  | owed + 1 =>
    rw [skipOwed] at run
    split at run
    · rename_i more mid head
      obtain ⟨front, ef, ⟨b, body, rfl, own⟩, -⟩ := sound_skipHead c more mid (parse_eq_some.2 head)
      have shorter := skipHead_shrinks head
      obtain ⟨used, k, eu, complete⟩ := skipOwed_complete (owed + more) mid c' run
      rw [Nat.add_comm] at complete
      -- what the header owes comes first, then what was owed before
      obtain ⟨inside, later, rfl, inner, next⟩ := complete.split
      refine ⟨b :: (body ++ (inside ++ later)), k + 1, by rw [ef, eu]; simp, ?_⟩
      cases container : (ofByte b).isContainer with
      | true => exact .deep container own inner (next.mono (Nat.le_succ k))
      | false =>
        obtain rfl := own.eq_zero container
        cases inner
        exact .flat container own (next.mono (Nat.le_succ k))
    · cases run
termination_by c.rest.length

/-- Skipping takes one complete value. -/
theorem sound_skip : skip.parse.Sound fun u _ => ∃ k, Complete k 1 u := by
  intro c _ c' run
  obtain ⟨used, k, e, complete⟩ := skipOwed_complete 1 c c' (parse_eq_some.1 run)
  exact ⟨used, e, ⟨k, complete⟩, takes_skip complete⟩

end MessagePack.Read
