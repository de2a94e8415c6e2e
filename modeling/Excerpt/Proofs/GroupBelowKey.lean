import Excerpt.Extraction
import Excerpt.Proofs.Demands
import Excerpt.Proofs.Modes
import Excerpt.Proofs.NestingLimit
import Excerpt.Proofs.StrictGrammar
import Excerpt.Proofs.Visibility

/-!
# A group below a key

The excerpt of a group in brackets below a key is the excerpt of the group from what stands below
the key: from every element where that is an array.

* `Term.fits_of_reach`, `Group.fits_of_reach`, `parse_print_iff` — in either mode a printed group is
  read as its selections just if its keys fit the limit;
* `Group.selections_under` — a group below a key selects what it selects by
  itself, with the key before it;
* `foldl_select_under`, `foldl_enter_child` — such selections go into one slot, which becomes an
  excerpt of the child;
* `KeySpec.extract_group` — all together.
-/

namespace Excerpt.Spec

/-! ### Reading a printed group -/

section Reach

variable {limit length : Nat} {lengths : List Nat}

theorem reachFrom_chars {chars : List Char} (h : ∀ c ∈ chars, isDelimiter c = false)
    (rest : List Char) :
    reachFrom lengths length (chars ++ rest) = reachFrom lengths length rest := by
  induction chars with
  | nil => rfl
  | cons c chars ih =>
    obtain ⟨hc, hchars⟩ := List.forall_mem_cons.1 h
    have hne := not_isDelimiter_iff.1 hc
    have hskip : reachFrom lengths length (c :: (chars ++ rest)) =
        reachFrom lengths length (chars ++ rest) := by simp [reachFrom, hne]
    rw [List.cons_append, hskip, ih hchars]

theorem reachFrom_key (key : Key) (rest : List Char) :
    reachFrom lengths length (key.chars ++ rest) = reachFrom lengths length rest :=
  reachFrom_chars (fun _ hc => Key.not_isDelimiter_of_mem hc) rest

theorem reachFrom_steps {steps : List Key} {rest : List Char} (hl : length ≤ limit)
    (h : reachFrom lengths length (printSteps steps ++ rest) ≤ limit) :
    length + steps.length ≤ limit ∧ reachFrom lengths (length + steps.length) rest ≤ limit := by
  induction steps generalizing length with
  | nil => exact ⟨hl, h⟩
  | cons key steps ih =>
    have hsplit : printSteps (key :: steps) ++ rest =
        key.chars ++ '.' :: (printSteps steps ++ rest) := by simp [printSteps]
    rw [hsplit, reachFrom_key, reachFrom, Nat.max_le] at h
    have hrest := ih h.1 h.2
    rw [List.length_cons]
    rwa [show length + (steps.length + 1) = length + 1 + steps.length by omega]

mutual

/-- Where the trajectories of a printed term are within the limit, its keys fit. -/
theorem Term.fits_of_reach {lengths : List Nat} {length : Nat} {rest : List Char}
    (hl : length ≤ limit) : (t : Term) →
    reachFrom lengths length (t.print ++ rest) ≤ limit →
    t.Fits limit length ∧ ∃ n, reachFrom lengths n rest ≤ limit
  | .plain steps key, h => by
    rw [Term.print, List.append_assoc] at h
    obtain ⟨hfits, hrest⟩ := reachFrom_steps hl h
    rw [reachFrom_key] at hrest
    exact ⟨hfits, _, hrest⟩
  | .grouped steps key group, h => by
    have hsplit : (Term.grouped steps key group).print ++ rest =
        printSteps steps ++ (key.chars ++ '[' :: (group.print ++ ']' :: rest)) := by
      simp [Term.print]
    rw [hsplit] at h
    obtain ⟨-, hrest⟩ := reachFrom_steps hl h
    rw [reachFrom_key, reachFrom, Nat.max_le] at hrest
    obtain ⟨hfits, n, hclose⟩ := Group.fits_of_reach hrest.1 group rfl hrest.2
    exact ⟨⟨hrest.1, hfits⟩, 0, hclose⟩

/-- Where the trajectories of a printed group are within the limit, its keys fit. -/
theorem Group.fits_of_reach {lengths : List Nat} {length : Nat} {rest : List Char}
    (hl : length ≤ limit) : (g : Group) → length = lengths.headD 0 →
    reachFrom lengths length (g.print ++ rest) ≤ limit →
    g.Fits limit length ∧ ∃ n, reachFrom lengths n rest ≤ limit
  | .one t, _, h => Term.fits_of_reach hl t h
  | .more t g, hlen, h => by
    rw [Group.print, List.append_assoc, List.cons_append] at h
    obtain ⟨hfits, n, hcomma⟩ := Term.fits_of_reach hl t h
    rw [reachFrom, ← hlen] at hcomma
    obtain ⟨hfits', hrest⟩ := Group.fits_of_reach hl g hlen hcomma
    exact ⟨⟨hfits, hfits'⟩, hrest⟩

end

end Reach

section Printed

variable {o : Options} {text : String} {ks : KeySpec}

/-- Whatever a reader accepts, in either mode, has its trajectories within the limit. -/
theorem reach_le_of_parse (h : KeySpec.parse o text = .ok ks) :
    reach (Text.compact text) ≤ o.depthLimit := by
  cases hm : o.mode with
  | lenient => exact (parse_lenient_ok_iff hm text).1 ⟨ks, h⟩
  | strict =>
    have hstrict : o.withMode .strict = o := by rw [← hm]; rfl
    have hparse : Stricter o.depthLimit (KeySpec.parse (o.withMode .strict) text)
        (KeySpec.parse (o.withMode .lenient) text) :=
      (stricter_walk o .top (Text.compact text) 0 (.start .top)).bind fun _ => .ok _
    rw [hstrict, h] at hparse
    have hlenient : KeySpec.parse (o.withMode .lenient) text = .ok ks := by
      rcases hparse.agrees with ⟨fault, hfault, -⟩ | hsame
      · cases hfault
      · exact hsame.symm
    exact (parse_lenient_ok_iff (o := o.withMode .lenient) rfl text).1 ⟨ks, hlenient⟩

/-- **In either mode a printed group is read as its selections**, just if its keys fit the limit. -/
theorem parse_print_iff {g : Group} (hg : Text.compact text = g.print) :
    KeySpec.parse o text = .ok ks ↔ g.Fits o.depthLimit 0 ∧ ks = ⟨g.selections []⟩ := by
  have hread : g.Fits o.depthLimit 0 → KeySpec.parse o text = .ok ⟨g.selections []⟩ := by
    intro hfits
    have hw := walk_group (o := o) (i := 0) (Pending.isFresh_start .top) g hfits [] rfl
    rw [List.append_nil, ← hg] at hw
    exact parse_eq_ok_iff.2 ⟨_, hw, rfl⟩
  constructor
  · intro h
    have hreach : reachFrom [] 0 (g.print ++ []) ≤ o.depthLimit := by
      rw [List.append_nil, ← hg]
      exact reach_le_of_parse h
    obtain ⟨hfits, -⟩ := Group.fits_of_reach (Nat.zero_le _) g rfl hreach
    refine ⟨hfits, ?_⟩
    have hsame := h.symm.trans (hread hfits)
    exact Except.ok.inj hsame
  · rintro ⟨hfits, rfl⟩
    exact hread hfits

/-- What a strict reader accepts is a printed group, if it is not empty. -/
theorem exists_group_of_parse (ho : o.mode = .strict) (h : KeySpec.parse o text = .ok ks)
    (hne : Text.compact text ≠ []) : ∃ g : Group, Text.compact text = g.print := by
  obtain ⟨w, hw, rfl⟩ := parse_eq_ok_iff.1 h
  obtain ⟨g, body, rest, hsplit, hr, hg, -, rfl⟩ :=
    (walk_reads ho .top _ 0 _ not_isBlank_of_mem_compact w hw).1 []
      (Pending.isFresh_start .top).inTerm (Nat.zero_le _) (fun hnil => absurd hnil hne)
  have hrest : rest = [] := by simpa [Level.EndsAt, Level.top] using hr
  refine ⟨g, ?_⟩
  rw [hsplit, hrest, ← hg]
  simp [printSteps, Pending.start]

end Printed

/-! ### The key before a group -/

mutual

/-- A term fits a limit below fewer keys too. -/
theorem Term.Fits.mono {limit m n : Nat} (hmn : m ≤ n) : (t : Term) → t.Fits limit n →
    t.Fits limit m
  | .plain steps _, h => by
    have h : n + steps.length ≤ limit := h
    show m + steps.length ≤ limit
    omega
  | .grouped steps _ group, h => by
    obtain ⟨hsteps, hgroup⟩ := h
    exact ⟨by omega, Group.Fits.mono (by omega) group hgroup⟩

/-- A group fits a limit below fewer keys too. -/
theorem Group.Fits.mono {limit m n : Nat} (hmn : m ≤ n) : (g : Group) → g.Fits limit n →
    g.Fits limit m
  | .one t, h => Term.Fits.mono hmn t h
  | .more t g, h => ⟨Term.Fits.mono hmn t h.1, Group.Fits.mono hmn g h.2⟩

end

end Excerpt.Spec

namespace Excerpt

open Json

namespace Spec

mutual

theorem Term.selections_under (key : String) (above : List String) : (t : Term) →
    t.selections (key :: above) = (t.selections above).map (Selection.under key)
  | .plain _ _ => rfl
  | .grouped steps k group => Group.selections_under key (above ++ texts steps ++ [k.text]) group

/-- A group below one more key selects what it selects without, with the key before it. -/
theorem Group.selections_under (key : String) (above : List String) : (g : Group) →
    g.selections (key :: above) = (g.selections above).map (Selection.under key)
  | .one t => Term.selections_under key above t
  | .more t g => by
    rw [Group.selections, Group.selections, Term.selections_under, Group.selections_under,
      List.map_append]

end

theorem compact_key {key : String} (hk : IsKey key) : Text.compact key = key.toList := by
  rw [Text.compact, List.filter_eq_self]
  intro c hc
  have hblank := (Bool.and_eq_true_iff.1 (hk.2 c hc)).2
  exact hblank

/-- The text of a group in brackets below a key is that of a term. -/
theorem compact_group {key : String} (hk : IsKey key) {text : String} {g : Group}
    (hg : Text.compact text = g.print) :
    Text.compact (key ++ "[" ++ text ++ "]") = (Group.one (.grouped [] ⟨key, hk⟩ g)).print := by
  have hopen : Text.compact "[" = ['['] := by decide +kernel
  have hclose : Text.compact "]" = [']'] := by decide +kernel
  rw [Text.compact_append, Text.compact_append, Text.compact_append, compact_key hk, hg, hopen,
    hclose]
  simp [Group.print, Term.print, printSteps, Key.chars]

end Spec

namespace Projection

/-! ### One slot -/

section Under

variable (node : Node) {key : String} {ss : List Selection}

theorem demands_under_self (key : String) (ss : List Selection) :
    demands key (ss.map (Selection.under key)) = ss.map Demand.enter := by
  induction ss with
  | nil => rfl
  | cons s ss ih =>
    rw [List.map_cons, demands_cons, ih]
    exact if_pos rfl

theorem demands_under_of_ne {other : String} (h : other ≠ key) (ss : List Selection) :
    demands other (ss.map (Selection.under key)) = [] := by
  induction ss with
  | nil => rfl
  | cons s ss ih =>
    rw [List.map_cons, demands_cons, ih]
    exact if_neg (Ne.symm h)

/-- **Selections below a key go into its slot**, and nothing else is created. -/
theorem foldl_select_under (hne : ss ≠ []) :
    (ss.map (Selection.under key)).foldl (select node) [] =
      [(key, ss.foldl (enter (node.child key)) (node.child key).emptySlot)] := by
  refine Entries.ext (sorted_foldl_select _ Entries.sorted_nil) (by simp [Entries.Sorted])
    fun other => ?_
  rw [get?_foldl_select, Entries.get?_nil, Entries.get?_cons]
  by_cases h : other = key
  · subst h
    rw [demands_under_self, foldl_meet_enters_none _ hne, if_pos rfl]
  · rw [demands_under_of_ne h, if_neg (Ne.symm h)]
    rfl

/-- Nothing and the value `null` give the same excerpt: neither has children. -/
theorem apply_null (ss : List Selection) :
    KeySpec.apply ⟨ss⟩ .null = .obj (ss.foldl (select .missing) []) := by
  refine congrArg Value.obj (foldl_select_eq_of_alike (fun s _ => ?_) [])
  obtain ⟨trajectory, key⟩ := s
  cases trajectory with
  | nil => rfl
  | cons step rest => exact below_refl (alike_refl rest key) .missing

/-- **The slot becomes an excerpt of the child**, or an array of those of its elements. -/
theorem foldl_enter_child (key : String) (hne : ss ≠ []) :
    (∀ items, node.child key = .sequence items →
      ss.foldl (enter (node.child key)) (node.child key).emptySlot =
        .arr (items.map (KeySpec.apply ⟨ss⟩))) ∧
    ((node.child key).isSequence = false →
      ss.foldl (enter (node.child key)) (node.child key).emptySlot =
        KeySpec.apply ⟨ss⟩ ((node.child key).value?.getD .null)) := by
  constructor
  · intro items hitems
    rw [hitems]
    exact foldl_enter_emptyArr items hne
  · intro hc
    rw [foldl_enter_emptySlot hc]
    cases hv : (node.child key).value? with
    | none =>
      rw [Node.child_eq_ofOption, hv]
      exact (apply_null ss).symm
    | some v =>
      rw [Node.child_eq_ofOption, hv]
      rfl

end Under

end Projection

namespace KeySpec

open Spec Projection

/-- **A group below a key.** Let a strict reader, under whatever limit, accept a group that is not
empty, and let the options accept it in brackets below a key. Then they accept the group by itself,
and extracting the whole gives one entry: the array of what the group extracts from each element,
where an array stands below the key, and otherwise what it extracts from the value there, or from
`null` where nothing is. -/
theorem extract_group {o o' : Options} {key : String} (hk : IsKey key) {group : String}
    (hne : Text.compact group ≠ []) (ho' : o'.mode = .strict) {ks' : KeySpec}
    (hgroup : KeySpec.parse o' group = .ok ks') {ks : KeySpec}
    (hp : KeySpec.parse o (key ++ "[" ++ group ++ "]") = .ok ks) (d : Value) :
    ∃ v, extract o d (key ++ "[" ++ group ++ "]") = .ok (.obj [(key, v)]) ∧
      (∀ items, (Node.of d).child key = .sequence items →
        ∃ vs, v = .arr vs ∧ List.Forall₂ (fun item w => extract o item group = .ok w) items vs) ∧
      (((Node.of d).child key).isSequence = false →
        extract o (((Node.of d).child key).value?.getD .null) group = .ok v) := by
  obtain ⟨g, hg⟩ := exists_group_of_parse ho' hgroup hne
  obtain ⟨hfits, rfl⟩ := (parse_print_iff (compact_group hk hg)).1 hp
  have hself : KeySpec.parse o group = .ok ⟨g.selections []⟩ :=
    (parse_print_iff hg).2 ⟨Group.Fits.mono (Nat.zero_le _) g hfits.2, rfl⟩
  have hextract : ∀ v, extract o v group = .ok (KeySpec.apply ⟨g.selections []⟩ v) := by
    intro v
    rw [extract, hself]
    rfl
  have hsel : (Group.one (.grouped [] ⟨key, hk⟩ g)).selections [] =
      (g.selections []).map (Selection.under key) := Group.selections_under key [] g
  have hss : g.selections [] ≠ [] := Group.selections_ne_nil [] g
  obtain ⟨hseq, hother⟩ := foldl_enter_child (.of d) key hss
  refine ⟨(g.selections []).foldl (enter ((Node.of d).child key))
    ((Node.of d).child key).emptySlot, ?_, ?_, ?_⟩
  · rw [extract, hp, hsel]
    show Except.ok (Value.obj (List.foldl _ _ _)) = _
    rw [foldl_select_under (.of d) hss]
  · intro items hitems
    refine ⟨items.map (KeySpec.apply ⟨g.selections []⟩), hseq items hitems, ?_⟩
    rw [List.forall₂_map_right_iff]
    exact List.forall₂_same.2 fun item _ => hextract item
  · intro hc
    rw [hother hc]
    exact hextract _

/-- Two elements. The second has a scalar on the way that follows. -/
def twoItems : List Value := [.obj [("b", .null)], .obj [("c", .str "x")]]

/-- A group with a group in it, below an array whose second element has a scalar on the way. The
strict reader that accepts the group has a lower limit than the options. -/
theorem extract_group_of_nested_groups :
    ∃ (o o' : Options) (ks ks' : KeySpec) (group : String), group = "b, c[d.e, b]" ∧ IsKey "a" ∧
      Text.compact group ≠ [] ∧ o'.mode = .strict ∧ KeySpec.parse o' group = .ok ks' ∧
      KeySpec.parse o ("a" ++ "[" ++ group ++ "]") = .ok ks ∧
      ∃ vs, extract o (.obj [("a", .arr twoItems)]) ("a" ++ "[" ++ group ++ "]") =
          .ok (.obj [("a", .arr vs)]) ∧
        List.Forall₂ (fun item w => extract o item group = .ok w) twoItems vs := by
  have hk : IsKey "a" := by decide +kernel
  have hne : Text.compact "b, c[d.e, b]" ≠ [] := by decide +kernel
  have hgroup : KeySpec.parse ⟨.strict, 2⟩ "b, c[d.e, b]" =
      .ok ⟨[⟨[], "b"⟩, ⟨["c", "d"], "e"⟩, ⟨["c"], "b"⟩]⟩ := by
    rw [parse_eq_run]
    rfl
  have hp : KeySpec.parse ⟨.lenient, 3⟩ ("a" ++ "[" ++ "b, c[d.e, b]" ++ "]") =
      .ok ⟨[⟨["a"], "b"⟩, ⟨["a", "c", "d"], "e"⟩, ⟨["a", "c"], "b"⟩]⟩ := by
    rw [parse_eq_run]
    rfl
  obtain ⟨v, hx, hitems, -⟩ := extract_group hk hne rfl hgroup hp (.obj [("a", .arr twoItems)])
  obtain ⟨vs, rfl, hvs⟩ := hitems twoItems rfl
  exact ⟨⟨.lenient, 3⟩, ⟨.strict, 2⟩, _, _, _, rfl, hk, hne, rfl, hgroup, hp, vs, hx, hvs⟩

end KeySpec

end Excerpt
