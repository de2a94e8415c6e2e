import Excerpt.Json.Reader

/-!
# Building a value of its tokens

* `Value.tokens` — the tokens of a value;
* `Builder.steps`, `Builder.read?` — what is built of tokens;
* `Builder.builds` — a value is built of its tokens just if there is room for its containers.
-/

namespace Excerpt.Json

namespace Value

mutual

def tokens : Value → List Token
  | .null => [.null]
  | .bool b => [.bool b]
  | .num n => [.num n]
  | .str s => [.str s]
  | .arr items => .openArr :: ([.comma].intercalate (tokensL items) ++ [.closeArr])
  | .obj entries => .openObj :: ([.comma].intercalate (tokensE entries) ++ [.closeObj])

def tokensL : List Value → List (List Token)
  | [] => []
  | v :: vs => tokens v :: tokensL vs

def tokensE : List (String × Value) → List (List Token)
  | [] => []
  | (k, v) :: es => (.str k :: .colon :: tokens v) :: tokensE es

end

end Value

theorem intercalate_cons {α : Type} (a : α) (sep x : List α) (xs : List (List α)) :
    (a :: sep).intercalate (x :: xs) = x ++ xs.flatMap fun y => a :: (sep ++ y) := by
  induction xs generalizing x with
  | nil => simp
  | cons y xs ih =>
    rw [List.intercalate_cons_cons, ih]
    simp

theorem intercalate_comma (x : List Token) (xs : List (List Token)) :
    [Token.comma].intercalate (x :: xs) = x ++ xs.flatMap (.comma :: ·) :=
  intercalate_cons .comma [] x xs

namespace Builder

variable {limit : Nat}

def steps (limit : Nat) (b : Builder) (ts : List Token) : Option Builder :=
  ts.foldlM (step limit) b

/-- What is built of tokens. -/
def read? (limit : Nat) (b : Builder) (ts : List Token) : Option Value :=
  (b.steps limit ts).bind result?

theorem steps_append {b b' : Builder} {ts us : List Token} :
    b.steps limit (ts ++ us) = some b' ↔
      ∃ b₁, b.steps limit ts = some b₁ ∧ b₁.steps limit us = some b' := by
  rw [steps, List.foldlM_append]
  exact Option.bind_eq_some_iff

/-- Where tokens lead to one state at most, the next ones are read from it. -/
theorem steps_append_of {b b₁ b' : Builder} {ts us : List Token} {p : Prop}
    (h : ∀ b', b.steps limit ts = some b' ↔ p ∧ b₁ = b') :
    b.steps limit (ts ++ us) = some b' ↔ p ∧ b₁.steps limit us = some b' := by
  rw [steps_append]
  simp only [h, and_assoc, exists_and_left, exists_eq_left']

theorem steps_cons {b b' : Builder} {t : Token} {ts : List Token} :
    b.steps limit (t :: ts) = some b' ↔
      ∃ b₁, b.step limit t = some b₁ ∧ b₁.steps limit ts = some b' := by
  rw [steps, List.foldlM_cons]
  exact Option.bind_eq_some_iff

theorem steps_singleton {b : Builder} {t : Token} : b.steps limit [t] = b.step limit t := by
  rw [steps, List.foldlM_cons]
  simp

theorem openContainer_eq_some {frame : Frame} {expecting : Expecting} {fs : List Frame}
    {b : Builder} : openContainer limit frame expecting fs = some b ↔
      fs.length < limit ∧ ⟨frame :: fs, expecting⟩ = b := by
  unfold openContainer
  split
  · next h => simp [h]
  · next h => simp [h]

/-- Where an element is expected, the first one is read like any other. -/
theorem steps_firstItem (v : Value) (ts : List Token) (fs : List Frame) :
    steps limit ⟨fs, .firstItem⟩ (v.tokens ++ ts) = steps limit ⟨fs, .value⟩ (v.tokens ++ ts) := by
  cases v <;> rfl

/-- A value is built of its tokens just if there is room for its containers. -/
def Builds (limit : Nat) (v : Value) : Prop :=
  ∀ (fs : List Frame) (b : Builder), fs.length ≤ limit →
    (steps limit ⟨fs, .value⟩ v.tokens = some b ↔
      fs.length + v.nesting ≤ limit ∧ deliver v fs = some b)

section Containers

variable {v : Value} {fs : List Frame} {b : Builder}

theorem Builds.item (hv : Builds limit v) (h : fs.length < limit) (done : List Value) :
    steps limit ⟨.arr done :: fs, .value⟩ v.tokens = some b ↔
      fs.length + (v.nesting + 1) ≤ limit ∧ ⟨.arr (v :: done) :: fs, .separator⟩ = b := by
  rw [hv (.arr done :: fs) b h, List.length_cons, Nat.add_assoc, Nat.add_comm 1]
  exact and_congr_right fun _ => Option.some_inj

theorem Builds.entry (hv : Builds limit v) (h : fs.length < limit) (key : String)
    (done : List (String × Value)) {expecting : Expecting}
    (hkey : expecting = .firstKey ∨ expecting = .key) :
    steps limit ⟨.obj done :: fs, expecting⟩ (.str key :: .colon :: v.tokens) = some b ↔
      fs.length + (v.nesting + 1) ≤ limit ∧
        ⟨.obj ((key, v) :: done) :: fs, .separator⟩ = b := by
  have hread : steps limit ⟨.obj done :: fs, expecting⟩ (.str key :: .colon :: v.tokens) =
      steps limit ⟨.field done key :: fs, .value⟩ v.tokens := by
    rcases hkey with rfl | rfl <;> rfl
  rw [hread, hv (.field done key :: fs) b h, List.length_cons, Nat.add_assoc, Nat.add_comm 1]
  exact and_congr_right fun _ => Option.some_inj

/-- What a run through the elements behind the first keeps: the array is open. -/
theorem steps_items {vs : List Value} (hvs : ∀ v ∈ vs, Builds limit v) (h : fs.length < limit)
    (done : List Value) :
    steps limit ⟨.arr done :: fs, .separator⟩ ((Value.tokensL vs).flatMap (.comma :: ·)) = some b ↔
      fs.length + (Value.nestingL vs + 1) ≤ limit ∧
        ⟨.arr (vs.reverse ++ done) :: fs, .separator⟩ = b := by
  induction vs generalizing done with
  | nil =>
    have hroom : fs.length + 1 ≤ limit := h
    simp [Value.tokensL, Value.nestingL, steps, hroom]
  | cons v vs ih =>
    obtain ⟨hv, hvs⟩ := List.forall_mem_cons.1 hvs
    have hcomma : ∀ ts, steps limit ⟨.arr done :: fs, .separator⟩ (.comma :: ts) =
        steps limit ⟨.arr done :: fs, .value⟩ ts := fun _ => rfl
    have hmax : fs.length + (v.nesting + 1) ≤ limit ∧
          fs.length + (Value.nestingL vs + 1) ≤ limit ↔
        fs.length + (max v.nesting (Value.nestingL vs) + 1) ≤ limit := by omega
    rw [Value.tokensL, List.flatMap_cons, List.cons_append, hcomma,
      steps_append_of fun _ => hv.item h done, ih hvs, Value.nestingL, List.reverse_cons,
      List.append_assoc, List.singleton_append, ← hmax, and_assoc]

/-- What a run through the entries behind the first keeps: the object is open. -/
theorem steps_entries {es : List (String × Value)} (hes : ∀ e ∈ es, Builds limit e.2)
    (h : fs.length < limit) (done : List (String × Value)) :
    steps limit ⟨.obj done :: fs, .separator⟩ ((Value.tokensE es).flatMap (.comma :: ·)) = some b ↔
      fs.length + (Value.nestingE es + 1) ≤ limit ∧
        ⟨.obj (es.reverse ++ done) :: fs, .separator⟩ = b := by
  induction es generalizing done with
  | nil =>
    have hroom : fs.length + 1 ≤ limit := h
    simp [Value.tokensE, Value.nestingE, steps, hroom]
  | cons e es ih =>
    obtain ⟨key, v⟩ := e
    obtain ⟨hv, hes⟩ := List.forall_mem_cons.1 hes
    have hcomma : ∀ ts, steps limit ⟨.obj done :: fs, .separator⟩ (.comma :: ts) =
        steps limit ⟨.obj done :: fs, .key⟩ ts := fun _ => rfl
    have hmax : fs.length + (v.nesting + 1) ≤ limit ∧
          fs.length + (Value.nestingE es + 1) ≤ limit ↔
        fs.length + (max v.nesting (Value.nestingE es) + 1) ≤ limit := by omega
    rw [Value.tokensE, List.flatMap_cons, List.cons_append, hcomma,
      steps_append_of fun _ => hv.entry h key done (.inr rfl), ih hes, Value.nestingE,
      List.reverse_cons, List.append_assoc, List.singleton_append, ← hmax, and_assoc]

theorem steps_closeArr {done : List Value} :
    steps limit ⟨.arr done :: fs, .separator⟩ [.closeArr] = deliver (.arr done.reverse) fs :=
  steps_singleton

theorem steps_closeObj {done : List (String × Value)} :
    steps limit ⟨.obj done :: fs, .separator⟩ [.closeObj] = deliver (.obj done.reverse) fs :=
  steps_singleton

theorem builds_arr {items : List Value} (hitems : ∀ v ∈ items, Builds limit v) :
    Builds limit (.arr items) := by
  intro fs b hfs
  rw [Value.tokens, steps_cons, Value.nesting]
  simp only [step, beginValue, openContainer_eq_some, and_assoc, exists_and_left, exists_eq_left']
  cases items with
  | nil =>
    refine and_congr_right fun _ => ?_
    rw [Value.tokensL, List.intercalate_nil, List.nil_append, steps_singleton]
    exact Iff.rfl
  | cons v vs =>
    obtain ⟨hv, hvs⟩ := List.forall_mem_cons.1 hitems
    have hmax : fs.length < limit ∧ fs.length + (v.nesting + 1) ≤ limit ∧
          fs.length + (Value.nestingL vs + 1) ≤ limit ↔
        fs.length + (max v.nesting (Value.nestingL vs) + 1) ≤ limit := by omega
    rw [Value.tokensL, intercalate_comma, List.append_assoc, steps_firstItem, Value.nestingL,
      ← hmax, and_assoc, and_assoc]
    refine and_congr_right fun h => ?_
    rw [steps_append_of fun _ => hv.item h [], steps_append_of fun _ => steps_items hvs h [v],
      steps_closeArr, List.reverse_append, List.reverse_reverse]
    exact Iff.rfl

theorem builds_obj {entries : List (String × Value)} (hentries : ∀ e ∈ entries, Builds limit e.2) :
    Builds limit (.obj entries) := by
  intro fs b hfs
  rw [Value.tokens, steps_cons, Value.nesting]
  simp only [step, beginValue, openContainer_eq_some, and_assoc, exists_and_left, exists_eq_left']
  cases entries with
  | nil =>
    refine and_congr_right fun _ => ?_
    rw [Value.tokensE, List.intercalate_nil, List.nil_append, steps_singleton]
    exact Iff.rfl
  | cons e es =>
    obtain ⟨key, v⟩ := e
    obtain ⟨hv, hes⟩ : Builds limit v ∧ ∀ e ∈ es, Builds limit e.2 :=
      List.forall_mem_cons.1 hentries
    have hmax : fs.length < limit ∧ fs.length + (v.nesting + 1) ≤ limit ∧
          fs.length + (Value.nestingE es + 1) ≤ limit ↔
        fs.length + (max v.nesting (Value.nestingE es) + 1) ≤ limit := by omega
    rw [Value.tokensE, intercalate_comma, List.append_assoc, Value.nestingE, ← hmax, and_assoc,
      and_assoc]
    refine and_congr_right fun h => ?_
    rw [steps_append_of fun _ => hv.entry h key [] (.inl rfl),
      steps_append_of fun _ => steps_entries hes h [(key, v)],
      steps_closeObj, List.reverse_append, List.reverse_reverse]
    exact Iff.rfl

end Containers

mutual

/-- **Every value is built of its tokens** just if there is room for its containers. -/
theorem builds : (v : Value) → Builds limit v
  | .null | .bool _ | .num _ | .str _ => by
    intro fs b hfs
    rw [Value.tokens, steps_singleton]
    exact (and_iff_right hfs).symm
  | .arr items => builds_arr (builds_of_mem_items items)
  | .obj entries => builds_obj (builds_of_mem_entries entries)

theorem builds_of_mem_items : (vs : List Value) → ∀ v ∈ vs, Builds limit v
  | [], _, hmem => absurd hmem List.not_mem_nil
  | v :: vs, w, hmem => by
    rcases List.mem_cons.1 hmem with heq | hmem
    · rw [heq]
      exact builds v
    · exact builds_of_mem_items vs w hmem

theorem builds_of_mem_entries : (es : List (String × Value)) → ∀ e ∈ es, Builds limit e.2
  | [], _, hmem => absurd hmem List.not_mem_nil
  | (key, v) :: es, e, hmem => by
    rcases List.mem_cons.1 hmem with heq | hmem
    · rw [heq]
      exact builds v
    · exact builds_of_mem_entries es e hmem

end

end Builder

end Excerpt.Json
