import BinaryLayout.Json.Basic
import BinaryLayout.Json.Scan

/-!
# Parsing JSON

A parser with a stack of open containers, which takes one token at a time. What it has taken can be
read off its state, `State.taken`, so every tree it gives is the one that was written:
`parse ts = some j` only if `ts` are the tokens of `j`.
-/

namespace BinaryLayout

namespace Json

/-- An array or object that is open, with what is in it so far, last first. -/
inductive Frame
  | items (done : List Json)
  | members (done : List (Option String × Json)) (key : Option String)

/-- What may come next: a value, a first item, a first key, a further key, a colon, or, behind a
value, what ends it. -/
inductive Next
  | value
  | item
  | firstKey
  | key (done : List (Option String × Json))
  | colon (done : List (Option String × Json)) (key : Option String)
  | ending (j : Json)

structure State where
  next : Next
  stack : List Frame

/-- A value begins. -/
def State.start (stack : List Frame) : Token → Option State
  | .null => some ⟨.ending .null, stack⟩
  | .bool b => some ⟨.ending (.bool b), stack⟩
  | .number n => some ⟨.ending (.number n), stack⟩
  | .text s => some ⟨.ending (.text s), stack⟩
  | .openBracket => some ⟨.item, stack⟩
  | .openBrace => some ⟨.firstKey, stack⟩
  | _ => none

def State.step : State → Token → Option State
  | ⟨.value, stack⟩, t => State.start stack t
  | ⟨.item, stack⟩, .closeBracket => some ⟨.ending (.array []), stack⟩
  | ⟨.item, stack⟩, t => State.start (.items [] :: stack) t
  | ⟨.firstKey, stack⟩, .closeBrace => some ⟨.ending (.object []), stack⟩
  | ⟨.firstKey, stack⟩, .text k => some ⟨.colon [] k, stack⟩
  | ⟨.key done, stack⟩, .text k => some ⟨.colon done k, stack⟩
  | ⟨.colon done k, stack⟩, .colon => some ⟨.value, .members done k :: stack⟩
  | ⟨.ending j, .items done :: stack⟩, .comma => some ⟨.value, .items (j :: done) :: stack⟩
  | ⟨.ending j, .items done :: stack⟩, .closeBracket =>
    some ⟨.ending (.array (j :: done).reverse), stack⟩
  | ⟨.ending j, .members done k :: stack⟩, .comma => some ⟨.key ((k, j) :: done), stack⟩
  | ⟨.ending j, .members done k :: stack⟩, .closeBrace =>
    some ⟨.ending (.object ((k, j) :: done).reverse), stack⟩
  | _, _ => none

/-- The members of an open object, each with the comma behind it. -/
def closedMembers (done : List (Option String × Json)) : List Token :=
  done.reverse.flatMap fun m => .text m.1 :: .colon :: (m.2.toTokens ++ [.comma])

def Frame.taken : Frame → List Token
  | .items done => .openBracket :: done.reverse.flatMap fun j => j.toTokens ++ [.comma]
  | .members done k => .openBrace :: (closedMembers done ++ [.text k, .colon])

def Next.taken : Next → List Token
  | .value => []
  | .item => [.openBracket]
  | .firstKey => [.openBrace]
  | .key done => .openBrace :: closedMembers done
  | .colon done k => .openBrace :: (closedMembers done ++ [.text k])
  | .ending j => j.toTokens

/-- The tokens that led to a state. -/
def State.taken (s : State) : List Token := s.stack.reverse.flatMap Frame.taken ++ s.next.taken

def State.run (s : State) (ts : List Token) : Option State := ts.foldlM State.step s

/-- The tree that tokens write down. -/
def parse (ts : List Token) : Option Json :=
  match State.run ⟨.value, []⟩ ts with
  | some ⟨.ending j, []⟩ => some j
  | _ => none

/-- The tree of a text; leaves without content are kept. -/
def ofString? (text : String) : Option Json := parse (tokens text.toList)

/-- The tree of a text of which every part is read: no leaf without content, bounded nesting. -/
def ofStringStrict? (text : String) : Option Json :=
  (ofString? text).filter fun j => j.isReadable && j.depth ≤ maxDepth

theorem itemTokens_append (js : List Json) (j : Json) :
    itemTokens (js ++ [j]) = js.flatMap (fun j => j.toTokens ++ [.comma]) ++ j.toTokens := by
  induction js with
  | nil => simp [itemTokens]
  | cons k ks ih =>
    rw [List.cons_append, itemTokens, ih]
    · simp
    · simp

theorem memberTokens_append (ms : List (Option String × Json)) (k : Option String) (j : Json) :
    memberTokens (ms ++ [(k, j)])
      = closedMembers ms.reverse ++ .text k :: .colon :: j.toTokens := by
  rw [closedMembers, List.reverse_reverse]
  induction ms with
  | nil => simp [memberTokens]
  | cons m ms ih =>
    rw [List.cons_append, memberTokens, ih]
    · simp
    · simp

theorem State.taken_start {stack : List Frame} {t : Token} {s : State}
    (h : State.start stack t = some s) :
    s.taken = stack.reverse.flatMap Frame.taken ++ [t] := by
  cases t <;> cases h <;> simp [State.taken, Next.taken, toTokens]

/-- A step takes its token and loses nothing. -/
theorem State.taken_step {s s' : State} {t : Token} (h : s.step t = some s') :
    s'.taken = s.taken ++ [t] := by
  unfold State.step at h
  split at h
  · rw [State.taken_start h]
    simp [State.taken, Next.taken]
  · cases h
    simp [State.taken, Next.taken, toTokens, itemTokens]
  · rw [State.taken_start h]
    simp [State.taken, Next.taken, Frame.taken]
  · cases h
    simp [State.taken, Next.taken, toTokens, memberTokens]
  · cases h
    simp [State.taken, Next.taken, closedMembers]
  · cases h
    simp [State.taken, Next.taken]
  · cases h
    simp [State.taken, Next.taken, Frame.taken]
  · cases h
    simp [State.taken, Next.taken, Frame.taken]
  · cases h
    simp [State.taken, Next.taken, Frame.taken, toTokens, itemTokens_append]
  · cases h
    simp [State.taken, Next.taken, Frame.taken, closedMembers]
  · cases h
    simp [State.taken, Next.taken, Frame.taken, toTokens, memberTokens_append]
  · cases h

theorem State.taken_run {s s' : State} {ts : List Token} (h : s.run ts = some s') :
    s'.taken = s.taken ++ ts := by
  induction ts generalizing s with
  | nil =>
    cases h
    simp
  | cons t ts ih =>
    obtain ⟨s₁, h₁, h₂⟩ := Option.bind_eq_some_iff.1 h
    rw [ih h₂, State.taken_step h₁, List.append_assoc, List.singleton_append]

/-- Only what a tree is written as is read as it. -/
theorem eq_toTokens_of_parse {ts : List Token} {j : Json} (h : parse ts = some j) :
    ts = j.toTokens := by
  unfold parse at h
  split at h
  · rename_i hr
    cases h
    exact (State.taken_run hr).symm
  · cases h

theorem State.run_cons (s : State) (t : Token) (ts : List Token) :
    s.run (t :: ts) = (s.step t).bind (·.run ts) := rfl

/-- A first item begins as any item does. -/
theorem State.run_first {js : List Json} (h : js ≠ []) (stack : List Frame) (ts : List Token) :
    State.run ⟨.item, stack⟩ (itemTokens js ++ ts)
      = State.run ⟨.value, .items [] :: stack⟩ (itemTokens js ++ ts) := by
  match js with
  | [j] => cases j <;> rfl
  | j :: _ :: _ => cases j <;> rfl

/-- A value is taken whatever is open around it and whatever follows it. -/
def Taken (j : Json) : Prop :=
  ∀ stack ts, State.run ⟨.value, stack⟩ (j.toTokens ++ ts) = State.run ⟨.ending j, stack⟩ ts

theorem State.run_itemTokens (stack : List Frame) (ts : List Token) {js : List Json}
    (h : ∀ j ∈ js, Taken j) (hne : js ≠ []) (done : List Json) :
    State.run ⟨.value, .items done :: stack⟩ (itemTokens js ++ .closeBracket :: ts)
      = State.run ⟨.ending (.array (done.reverse ++ js)), stack⟩ ts := by
  induction js generalizing done with
  | nil => exact absurd rfl hne
  | cons j js ih =>
    have hj := h j List.mem_cons_self
    cases js with
    | nil =>
      rw [itemTokens, hj]
      show State.run ⟨.ending (.array (j :: done).reverse), stack⟩ ts = _
      rw [List.reverse_cons]
    | cons k ks =>
      rw [itemTokens, List.append_assoc, hj]
      · have := ih (fun j hm => h j (List.mem_cons_of_mem _ hm)) (List.cons_ne_nil _ _) (j :: done)
        rw [List.reverse_cons, List.append_assoc] at this
        exact this
      · simp

theorem State.run_memberTokens (stack : List Frame) (ts : List Token)
    {ms : List (Option String × Json)} (h : ∀ m ∈ ms, Taken m.2) (hne : ms ≠ [])
    (done : List (Option String × Json)) :
    State.run ⟨.key done, stack⟩ (memberTokens ms ++ .closeBrace :: ts)
      = State.run ⟨.ending (.object (done.reverse ++ ms)), stack⟩ ts := by
  induction ms generalizing done with
  | nil => exact absurd rfl hne
  | cons m ms ih =>
    obtain ⟨k, j⟩ := m
    have hj : Taken j := h _ List.mem_cons_self
    cases ms with
    | nil =>
      rw [memberTokens]
      show State.run ⟨.value, .members done k :: stack⟩ (j.toTokens ++ _) = _
      rw [hj]
      show State.run ⟨.ending (.object ((k, j) :: done).reverse), stack⟩ ts = _
      rw [List.reverse_cons]
    | cons m' ms =>
      rw [memberTokens]
      · show State.run ⟨.value, .members done k :: stack⟩ ((j.toTokens ++ _) ++ _) = _
        rw [List.append_assoc, hj]
        have := ih (fun m hm => h m (List.mem_cons_of_mem _ hm)) (List.cons_ne_nil _ _)
          ((k, j) :: done)
        rw [List.reverse_cons, List.append_assoc] at this
        exact this
      · simp

theorem taken (j : Json) : Taken j := by
  intro stack ts
  match j with
  | .null | .bool _ | .number _ | .text _ | .array [] | .object [] => rfl
  | .array (j :: js) =>
    rw [toTokens, List.append_assoc, List.cons_append, State.run_cons]
    have h := State.run_itemTokens stack ts (fun i _ => taken i) (List.cons_ne_nil j js) []
    show State.run ⟨.item, stack⟩ (itemTokens (j :: js) ++ .closeBracket :: ts) = _
    rw [State.run_first (List.cons_ne_nil j js)]
    exact h
  | .object (m :: ms) =>
    rw [toTokens, List.append_assoc, List.cons_append, State.run_cons]
    have h := State.run_memberTokens stack ts (fun i _ => taken i.2) (List.cons_ne_nil m ms) []
    show State.run ⟨.firstKey, stack⟩ (memberTokens (m :: ms) ++ .closeBrace :: ts) = _
    obtain ⟨k, j⟩ := m
    cases ms <;> exact h
termination_by j
decreasing_by
  · have := List.sizeOf_lt_of_mem ‹_›
    simp only [Json.array.sizeOf_spec]
    omega
  · have := List.sizeOf_lt_of_mem ‹_›
    obtain ⟨k, j⟩ := i
    simp only [Json.object.sizeOf_spec, Prod.mk.sizeOf_spec] at this ⊢
    omega

theorem parse_toTokens (j : Json) : parse j.toTokens = some j := by
  have h := taken j [] []
  rw [List.append_nil] at h
  rw [parse, h]
  rfl

/-- A tree is read from its own tokens and from nothing else. -/
theorem parse_eq_some_iff {ts : List Token} {j : Json} : parse ts = some j ↔ ts = j.toTokens :=
  ⟨eq_toTokens_of_parse, fun h => h ▸ parse_toTokens j⟩

end Json

end BinaryLayout
