import Sylar.Http.Split

/-!
# Every call of the receiving loop

The loop over the reads ends (`recvHeader_isSome`): each turn takes a byte from the connection. And what
no action of a machine takes away from the object is there when the loop is left (`recvHeader_keeps`).
-/

namespace Sylar.Http

open Lib SocketStream ChunkedReader

variable {A Obj : Type}

namespace Machine

variable {machine : Machine A Obj}

/-! ## Invariants -/

theorem execute_keeps {I : Obj → Bool} (keeps : ∀ obj a, (machine.action obj a).Keeps I) {buffer : Str}
    {parser parser' : Parser A Obj} {parsed : Nat}
    (executed : machine.execute parser buffer = some (parser', parsed)) (holds : I parser.obj = true) :
    I parser'.obj = true := by
  rw [execute] at executed
  cases cs : parser.cs with
  | none =>
    rw [cs] at executed
    obtain ⟨rfl, -⟩ := Prod.mk.inj (Option.some.inj executed)
    exact holds
  | some q =>
    rw [cs] at executed
    obtain ⟨⟨regs, obj⟩, run, eq⟩ := Option.map_eq_some_iff.mp executed
    obtain ⟨rfl, -⟩ := Prod.mk.inj eq
    exact run_keeps keeps _ run holds

/-- A property that no action takes away holds when the loop has found a whole header. -/
theorem recvHeader_keeps {I : Obj → Bool} (keeps : ∀ obj a, (machine.action obj a).Keeps I) {buffSize : Nat}
    (fuel : Nat) : ∀ {parser parser' : Parser A Obj} {unparsed left : Str} {reads rest : Reads},
    machine.recvHeader buffSize fuel parser unparsed reads = some (some (parser', left, rest)) →
    I parser.obj = true → I parser'.obj = true := by
  induction fuel with
  | zero => exact fun got => nomatch got
  | succ fuel ih =>
    intro parser parser' unparsed left reads rest got holds
    rw [recvHeader] at got
    split at got
    · cases got
    · split at got
      · cases got
      · rename_i executed
        have holds' := execute_keeps keeps executed holds
        dsimp only at got
        split at got
        · cases got
        · split at got
          · obtain ⟨rfl, -⟩ := Prod.mk.inj (Option.some.inj (Option.some.inj got))
            exact holds'
          · exact ih got holds'

/-- An execution that finishes the parser is one on a whole header section. -/
theorem finishes_of_execute {obj : Obj} {text : Str} {parser : Parser A Obj} {parsed : Nat}
    (executed : machine.execute (machine.parser obj) text = some (parser, parsed))
    (finished : machine.isFinished parser = true) : machine.Finishes text := by
  obtain ⟨⟨regs, obj'⟩, -, eq⟩ := Option.map_eq_some_iff.mp executed
  obtain ⟨rfl, -⟩ := Prod.mk.inj eq
  exact finished

/-- A header that is found in one read, behind which nothing comes, is in that read. -/
theorem finishes_of_recvHeader {buffSize fuel : Nat} {obj : Obj} {segment : Str} {x : Parser A Obj × Str × Reads}
    (nonempty : segment ≠ []) (fits : segment.length ≤ buffSize)
    (got : machine.recvHeader buffSize fuel (machine.parser obj) [] [segment] = some (some x)) :
    machine.Finishes segment := by
  have noMore : ∀ (fuel : Nat) (parser : Parser A Obj) (unparsed : Str),
      machine.recvHeader buffSize fuel parser unparsed [] ≠ some (some x) := by
    intro fuel parser unparsed
    cases fuel with
    | zero => exact fun got => nomatch got
    | succ fuel => exact fun got => nomatch got
  cases fuel with
  | zero => cases got
  | succ fuel =>
    rw [recvHeader, List.length_nil, Nat.sub_zero, read_of_fed nonempty fits] at got
    dsimp only at got
    rw [List.nil_append] at got
    split at got
    · cases got
    · rename_i parser parsed executed
      split at got
      · cases got
      · split at got
        · rename_i finished
          exact finishes_of_execute executed finished
        · exact absurd got (noMore _ _ _)

/-! ## Termination -/

/-- Enough fuel: one turn for every byte that can still come, and one to find that there is none. -/
theorem recvHeader_isSome {buffSize : Nat} (fuel : Nat) : ∀ {parser : Parser A Obj} {unparsed : Str}
    {reads : Reads}, reads.flatten.length < fuel →
    (machine.recvHeader buffSize fuel parser unparsed reads).isSome = true := by
  induction fuel with
  | zero => exact fun lt => absurd lt (Nat.not_lt_zero _)
  | succ fuel ih =>
    intro parser unparsed reads lt
    rw [recvHeader]
    split
    · rfl
    · rename_i got
      obtain ⟨nonempty, count⟩ := read_spec got
      have pos := List.length_pos_iff.mpr nonempty
      split
      · rfl
      · dsimp only
        split
        · rfl
        · split
          · rfl
          · exact ih (by omega)

/-- What a read leaves. -/
theorem fed_of_read {buffSize n : Nat} {got : Str} {reads reads' : Reads} (read : read n reads = some (got, reads'))
    (fed : Fed buffSize reads) : Fed buffSize reads' := by
  cases reads with
  | nil => cases read
  | cons segment rest =>
    have pos : 0 < n := by
      refine Nat.pos_of_ne_zero fun zero => ?_
      rw [SocketStream.read, if_pos (.inl zero)] at read
      cases read
    obtain ⟨rest', read', -, fed', -⟩ := read_fed pos fed
    rw [read] at read'
    rw [(Prod.mk.inj (Option.some.inj read')).2]
    exact fed'

/-- The reads still to come behind a header are as good as those the loop was given. -/
theorem recvHeader_fed {buffSize : Nat} (fuel : Nat) : ∀ {parser parser' : Parser A Obj} {unparsed left : Str}
    {reads rest : Reads}, machine.recvHeader buffSize fuel parser unparsed reads = some (some (parser', left, rest)) →
    Fed buffSize reads → Fed buffSize rest := by
  induction fuel with
  | zero => exact fun got => nomatch got
  | succ fuel ih =>
    intro parser parser' unparsed left reads rest got fed
    rw [recvHeader] at got
    split at got
    · cases got
    · rename_i read
      have fed' := fed_of_read read fed
      split at got
      · cases got
      · dsimp only at got
        split at got
        · cases got
        · split at got
          · obtain ⟨-, same⟩ := Prod.mk.inj (Option.some.inj (Option.some.inj got))
            obtain ⟨-, rfl⟩ := Prod.mk.inj same
            exact fed'
          · exact ih got fed'

end Machine

end Sylar.Http
