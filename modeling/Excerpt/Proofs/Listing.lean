import Excerpt.Proofs.OnePass
import Excerpt.Proofs.StrictGrammar

/-!
# The listing of a specification

What a reader gives can be listed, path by path, and the listing reads back under the same options.

* `Plain`, `Legible` — texts without delimiters and blanks, and the selections of such texts that a
  reader may give;
* `legible_of_walk` — a reader gives no others;
* `walk_listing` — the listing of legible selections is read as they are;
* `parse_of_compact` — so it is with blanks in it;
* `parse_listing` — both together.
-/

namespace Excerpt.Spec

/-- All characters of the text may stand in a key; there may be none. -/
def Plain (text : String) : Prop := ∀ c ∈ text.toList, isKeyChar c = true

/-- The keys may stand above the key of a selection: there are not too many, and a strict reader
has seen that none is empty. -/
structure Steps (o : Options) (keys : List String) : Prop where
  length_le : keys.length ≤ o.depthLimit
  plain : ∀ key ∈ keys, Plain key
  ne_empty : o.mode = .strict → ∀ key ∈ keys, key ≠ ""

/-- A selection that a reader may give. -/
structure Legible (o : Options) (s : Selection) : Prop where
  steps : Steps o s.trajectory
  plain : Plain s.key
  ne_empty : s.key ≠ ""

section Characters

variable {key : String} {c : Char}

theorem Plain.not_isDelimiter (h : Plain key) (hc : c ∈ key.toList) : isDelimiter c = false := by
  simpa using (Bool.and_eq_true_iff.1 (h c hc)).1

theorem plain_empty : Plain "" := by simp [Plain]

theorem Plain.push (h : Plain key) (hc : isKeyChar c = true) : Plain (key.push c) := by
  intro d hd
  have hd' : d ∈ key.toList ∨ d = c := by simpa using hd
  rcases hd' with hd' | rfl
  · exact h d hd'
  · exact hc

end Characters

section Readers

variable {o : Options} {keys : List String} {key : String}

theorem steps_nil : Steps o [] := ⟨Nat.zero_le _, by simp, by simp⟩

theorem Steps.snoc (h : Steps o keys) (hk : Plain key) (hl : keys.length + 1 ≤ o.depthLimit)
    (hs : o.mode = .strict → key ≠ "") : Steps o (keys ++ [key]) where
  length_le := by simpa using hl
  plain := by
    intro k hmem
    rcases List.mem_append.1 hmem with hmem | hmem
    · exact h.plain k hmem
    · rw [List.mem_singleton.1 hmem]
      exact hk
  ne_empty := by
    intro ho k hmem
    rcases List.mem_append.1 hmem with hmem | hmem
    · exact h.ne_empty ho k hmem
    · rw [List.mem_singleton.1 hmem]
      exact hs ho

/-- What a reader accepts, one that takes every text as far as it can accepts too. -/
theorem Legible.lenient {s : Selection} (h : Legible o s) : Legible ⟨.lenient, depthCeiling⟩ s where
  steps := {
    length_le := by
      have := h.steps.length_le
      have := o.depthLimit_le_ceiling
      simp only [Options.depthLimit, Nat.min_self]
      omega
    plain := h.steps.plain
    ne_empty := by simp }
  plain := h.plain
  ne_empty := h.ne_empty

end Readers

/-! ### What a reader gives -/

/-- The state of a level holds keys that a reader may give. -/
structure Pending.Sound (o : Options) (p : Pending) : Prop where
  steps : Steps o p.trajectory
  plain : Plain p.key

section Reading

variable {o : Options} {level : Level} {p : Pending} {i : Nat}

theorem sound_start (h : Steps o level.inherited) : (Pending.start level).Sound o :=
  ⟨h, plain_empty⟩

theorem sound_nextSibling (h : Steps o level.inherited) : (Pending.nextSibling level i).Sound o :=
  ⟨h, plain_empty⟩

theorem sound_behindGroup : (Pending.behindGroup i).Sound o := ⟨steps_nil, plain_empty⟩

theorem Pending.Sound.extend {c : Char} (h : p.Sound o) (hc : isKeyChar c = true) :
    (p.extend i c).Sound o :=
  ⟨h.steps, h.plain.push hc⟩

theorem Pending.Sound.legible_of_mem_emit (h : p.Sound o) {s : Selection} (hs : s ∈ p.emit) :
    Legible o s := by
  by_cases hk : p.key = ""
  · simp [Pending.emit, hk] at hs
  · obtain rfl : s = ⟨p.trajectory, p.key⟩ := by simpa [Pending.emit, hk] using hs
    exact ⟨h.steps, h.plain, hk⟩

/-- A dot and an opening bracket are objected to where the key before them is empty. -/
theorem key_ne_of_heed {c : Char} (hc : c = '.' ∨ c = '[')
    (h : heed o (p.objection level i c) = .ok ()) (ho : o.mode = .strict) : p.key ≠ "" := by
  rcases hc with rfl | rfl
  · exact (objection_dot.1 ((heed_strict ho).1 h)).2
  · exact (objection_open.1 ((heed_strict ho).1 h)).2

/-- **A reader gives legible selections.** The keys that are kept at a level, and at every level
around it, are plain and not too many. -/
theorem legible_of_walk (level : Level) (cs : List Char) (i : Nat) (p : Pending)
    (hcs : ∀ c ∈ cs, Text.isBlank c = false) (hl : Steps o level.inherited) (hp : p.Sound o)
    (w : Walk) (hw : walk o level cs i p = .ok w) : ∀ s ∈ w.selections, Legible o s := by
  induction level, cs, i, p using walk.induct generalizing w with
  | case1 level i p =>
    obtain ⟨-, rfl⟩ := walk_nil_ok.1 hw
    exact fun s hs => hp.legible_of_mem_emit hs
  | case2 level c cs i p ihComma ihInner ihBehind ihDot ihChar =>
    obtain ⟨hc, hrest⟩ := List.forall_mem_cons.1 hcs
    rcases delimiter_cases c with rfl | rfl | rfl | rfl | hdel
    -- a comma
    · obtain ⟨-, tail, htail, rfl⟩ := walk_comma_ok.1 hw
      intro s hs
      rcases List.mem_append.1 hs with hs | hs
      · exact hp.legible_of_mem_emit hs
      · exact ihComma hrest hl (sound_nextSibling hl) tail htail s hs
    -- a dot: the key becomes a step
    · obtain ⟨hheed, hd, tail, htail, rfl⟩ := walk_dot_ok.1 hw
      have hstep := hp.steps.snoc hp.plain hd (key_ne_of_heed (.inl rfl) hheed)
      exact ihDot hrest hl ⟨hstep, plain_empty⟩ tail htail
    -- an opening bracket: the key becomes a step of all selections of the group
    · obtain ⟨hheed, hd, nested, hnested, tail, htail, rfl⟩ := walk_open_ok.1 hw
      have hgroup : Steps o p.groupKeys :=
        hp.steps.snoc hp.plain hd (key_ne_of_heed (.inr rfl) hheed)
      have hdrop : ∀ c ∈ cs.drop nested.consumed, Text.isBlank c = false :=
        fun c hc => hrest c (List.mem_of_mem_drop hc)
      intro s hs
      rcases List.mem_append.1 hs with hs | hs
      · exact ihInner hrest hgroup (sound_start hgroup) nested hnested s hs
      · exact ihBehind nested hdrop hl sound_behindGroup tail htail s hs
    -- a closing bracket
    · obtain ⟨-, rfl⟩ := walk_close_ok.1 hw
      exact fun s hs => hp.legible_of_mem_emit hs
    -- a character of a key
    · obtain ⟨-, tail, htail, rfl⟩ := (walk_char_ok hdel).1 hw
      have hkey : isKeyChar c = true := by simp [isKeyChar, hdel, hc]
      exact ihChar hrest hl (hp.extend hkey) tail htail

theorem legible_of_parse {text : String} {ks : KeySpec} (h : KeySpec.parse o text = .ok ks) :
    ∀ s ∈ ks.selections, Legible o s := by
  obtain ⟨w, hw, rfl⟩ := parse_eq_ok_iff.1 h
  have hstart : (Pending.start .top).Sound o := sound_start steps_nil
  exact legible_of_walk .top _ 0 _ not_isBlank_of_mem_compact steps_nil hstart w hw

end Reading

/-! ### The characters of a listing -/

/-- The characters of keys above another one: each with a dot behind it. -/
def stepChars (keys : List String) : List Char := keys.flatMap fun key => key.toList ++ ['.']

/-- The characters of selections, with commas between them. -/
def listingChars : List Selection → List Char
  | [] => []
  | [s] => stepChars s.trajectory ++ s.key.toList
  | s :: t :: ss => stepChars s.trajectory ++ s.key.toList ++ ',' :: listingChars (t :: ss)

theorem intercalate_snoc {α : Type} (sep : List α) (xs : List (List α)) (x : List α) :
    sep.intercalate (xs ++ [x]) = (xs.flatMap fun y => y ++ sep) ++ x := by
  induction xs with
  | nil => simp
  | cons y xs ih => cases xs <;> simp_all

theorem toList_dotted (s : Selection) :
    s.dotted.toList = stepChars s.trajectory ++ s.key.toList := by
  have hsplit := intercalate_snoc ['.'] (s.trajectory.map String.toList) s.key.toList
  simp only [Selection.dotted, Selection.path, String.toList_intercalate, List.map_append,
    List.map_cons, List.map_nil, stepChars]
  rw [show (".".toList : List Char) = ['.'] from rfl, hsplit, List.flatMap_map]

theorem toList_listing (ss : List Selection) :
    (⟨ss⟩ : KeySpec).listing.toList = listingChars ss := by
  induction ss with
  | nil => rfl
  | cons s ss ih =>
    cases ss with
    | nil => simp [KeySpec.listing, listingChars, toList_dotted]
    | cons t ss =>
      have hcons : (⟨s :: t :: ss⟩ : KeySpec).listing.toList =
          s.dotted.toList ++ ',' :: (⟨t :: ss⟩ : KeySpec).listing.toList := by
        simp [KeySpec.listing]
      rw [hcons, ih, listingChars, toList_dotted]

/-- A character of a listing is one of a key, or a dot or a comma. -/
theorem mem_listingChars {o : Options} {ss : List Selection} (h : ∀ s ∈ ss, Legible o s) {c : Char}
    (hc : c ∈ listingChars ss) : isKeyChar c = true ∨ c = '.' ∨ c = ',' := by
  have hone : ∀ s ∈ ss, c ∈ stepChars s.trajectory ++ s.key.toList →
      isKeyChar c = true ∨ c = '.' := by
    intro s hs hmem
    rcases List.mem_append.1 hmem with hmem | hmem
    · obtain ⟨key, hkey, hmem⟩ := List.mem_flatMap.1 hmem
      rcases List.mem_append.1 hmem with hmem | hmem
      · exact .inl ((h s hs).steps.plain key hkey c hmem)
      · exact .inr (List.mem_singleton.1 hmem)
    · exact .inl ((h s hs).plain c hmem)
  induction ss with
  | nil => simp [listingChars] at hc
  | cons s ss ih =>
    have hhead : c ∈ stepChars s.trajectory ++ s.key.toList →
        isKeyChar c = true ∨ c = '.' ∨ c = ',' := fun hmem =>
      (hone s List.mem_cons_self hmem).imp_right .inl
    cases ss with
    | nil => exact hhead hc
    | cons t ss =>
      rcases List.mem_append.1 hc with hc | hc
      · exact hhead hc
      · rcases List.mem_cons.1 hc with rfl | hc
        · exact .inr (.inr rfl)
        · exact ih (fun u hu => h u (List.mem_cons_of_mem _ hu)) hc
            fun u hu => hone u (List.mem_cons_of_mem _ hu)

theorem not_isBlank_of_mem_listing {o : Options} {ss : List Selection}
    (h : ∀ s ∈ ss, Legible o s) {c : Char} (hc : c ∈ listingChars ss) :
    Text.isBlank c = false ∧ c ≠ '[' ∧ c ≠ ']' := by
  rcases mem_listingChars h hc with hkey | rfl | rfl
  · have hne : isDelimiter c = false ∧ Text.isBlank c = false := by simpa [isKeyChar] using hkey
    have hdel := not_isDelimiter_iff.1 hne.1
    exact ⟨hne.2, hdel.2.2⟩
  · decide
  · decide

/-! ### Reading a listing -/

section Listing

variable {o : Options} {level : Level} {p : Pending} {i : Nat}

/-- Reading a key that may be empty, and the dot behind it. -/
theorem leads_step {key : String} (hk : Plain key) (hs : o.mode = .strict → key ≠ "")
    (hp : p.afterGroup = false) (h0 : p.key = "") (hd : p.trajectory.length + 1 ≤ o.depthLimit) :
    ∃ j q, Leads o level (key.toList ++ ['.']) i p [] j q ∧
      q.trajectory = p.trajectory ++ [key] ∧ q.key = "" ∧ q.afterGroup = false := by
  obtain ⟨j, q, hq, ht, hqk, ha⟩ : ∃ j q, Leads o level key.toList i p [] j q ∧
      q.trajectory = p.trajectory ∧ q.key.toList = p.key.toList ++ key.toList ∧
      q.afterGroup = false :=
    leads_chars (fun c hc => hk.not_isDelimiter hc) hp
  have hkey : q.key = key := by
    rw [← String.toList_inj, hqk, h0]
    simp
  have hheed : heed o (q.objection level j '.') = .ok () := by
    cases ho : o.mode with
    | lenient => exact heed_lenient ho _
    | strict => exact (heed_strict ho).2 (objection_dot.2 ⟨ha, hkey ▸ hs ho⟩)
  have hdot : Leads o level ['.'] j q [] (j + 1) (q.descend j) :=
    fun _ w hw => walk_dot_ok.2 ⟨hheed, by rw [ht]; exact hd, w, hw, rfl⟩
  refine ⟨j + 1, q.descend j, by simpa using hq.trans hdot, ?_, rfl, ha⟩
  simp [Pending.descend, ht, hkey]

theorem leads_stepChars {keys : List String} (hk : ∀ key ∈ keys, Plain key)
    (hs : o.mode = .strict → ∀ key ∈ keys, key ≠ "") (hp : p.afterGroup = false)
    (h0 : p.key = "") (hd : p.trajectory.length + keys.length ≤ o.depthLimit) :
    ∃ j q, Leads o level (stepChars keys) i p [] j q ∧
      q.trajectory = p.trajectory ++ keys ∧ q.key = "" ∧ q.afterGroup = false := by
  induction keys generalizing p i with
  | nil => exact ⟨i, p, .refl, by simp, h0, hp⟩
  | cons key keys ih =>
    obtain ⟨hkey, hk⟩ := List.forall_mem_cons.1 hk
    rw [List.length_cons] at hd
    obtain ⟨j, q, hq, ht, hqk, ha⟩ : ∃ j q, Leads o level (key.toList ++ ['.']) i p [] j q ∧
        q.trajectory = p.trajectory ++ [key] ∧ q.key = "" ∧ q.afterGroup = false :=
      leads_step hkey (fun ho => hs ho key List.mem_cons_self) hp h0 (by omega)
    have hlen : q.trajectory.length + keys.length ≤ o.depthLimit := by
      rw [ht, List.length_append, List.length_singleton]
      omega
    obtain ⟨j', q', hq', ht', hqk', ha'⟩ := ih (p := q) (i := j) hk
      (fun ho k hmem => hs ho k (List.mem_cons_of_mem _ hmem)) ha hqk hlen
    refine ⟨j', q', by simpa [stepChars] using hq.trans hq', ?_, hqk', ha'⟩
    rw [ht', ht, List.append_assoc, List.singleton_append]

/-- Reading the path of a selection leaves it pending. -/
theorem leads_selection {s : Selection} (h : Legible o s) (hp : p.IsFresh .top) :
    ∃ j q, Leads o .top (stepChars s.trajectory ++ s.key.toList) i p [] j q ∧
      q.isBare = false ∧ q.emit = [s] := by
  obtain ⟨ht, hk, ha⟩ := hp
  have hlen : p.trajectory.length + s.trajectory.length ≤ o.depthLimit := by
    simpa [ht, Level.top] using h.steps.length_le
  obtain ⟨j, q, hq, hqt, hqk, hqa⟩ : ∃ j q, Leads o .top (stepChars s.trajectory) i p [] j q ∧
      q.trajectory = p.trajectory ++ s.trajectory ∧ q.key = "" ∧ q.afterGroup = false :=
    leads_stepChars h.steps.plain h.steps.ne_empty ha hk hlen
  obtain ⟨j', q', hq', hqt', hqk', -⟩ : ∃ j' q', Leads o .top s.key.toList j q [] j' q' ∧
      q'.trajectory = q.trajectory ∧ q'.key.toList = q.key.toList ++ s.key.toList ∧
      q'.afterGroup = false :=
    leads_chars (fun c hc => h.plain.not_isDelimiter hc) hqa
  have hkey : q'.key = s.key := by
    rw [← String.toList_inj, hqk', hqk]
    simp
  have htraj : q'.trajectory = s.trajectory := by
    rw [hqt', hqt, ht]
    rfl
  refine ⟨j', q', by simpa using hq.trans hq', ?_, ?_⟩
  · simp [Pending.isBare, hkey, h.ne_empty]
  · simp [Pending.emit, hkey, htraj, h.ne_empty]

/-- **A listing is read as the selections that it lists.** -/
theorem walk_listing {ss : List Selection} (h : ∀ s ∈ ss, Legible o s) (hne : ss ≠ [])
    (hp : p.IsFresh .top) : ∃ n, walk o .top (listingChars ss) i p = .ok ⟨ss, n⟩ := by
  induction ss generalizing p i with
  | nil => exact absurd rfl hne
  | cons s ss ih =>
    obtain ⟨hs, hss⟩ := List.forall_mem_cons.1 h
    obtain ⟨j, q, hq, hb, hemit⟩ := leads_selection (i := i) hs hp
    cases ss with
    | nil =>
      have hend := hq [] _ (walk_end hb rfl)
      rw [List.append_nil, hemit] at hend
      exact ⟨_, hend⟩
    | cons t ss =>
      obtain ⟨n, hn⟩ := ih (p := .nextSibling .top j) (i := j + 1) hss (by simp)
        (Pending.isFresh_nextSibling .top j)
      have hrest := (hq.trans (leads_comma hb)) _ _ hn
      rw [hemit] at hrest
      exact ⟨_, by simpa [listingChars] using hrest⟩

/-- Blanks may stand anywhere in a listing. -/
theorem parse_of_compact {ss : List Selection} (h : ∀ s ∈ ss, Legible o s) {text : String}
    (ht : Text.compact text = listingChars ss) : KeySpec.parse o text = .ok ⟨ss⟩ := by
  rw [parse_eq_ok_iff, ht]
  by_cases hne : ss = []
  · subst hne
    exact ⟨⟨[], 1⟩, walk_nil_ok.2 ⟨heed_eq_ok.2 (.inr rfl), rfl⟩, rfl⟩
  · obtain ⟨n, hn⟩ := walk_listing (i := 0) h hne (Pending.isFresh_start .top)
    exact ⟨_, hn, rfl⟩

theorem parse_of_legible {ss : List Selection} (h : ∀ s ∈ ss, Legible o s) :
    KeySpec.parse o (⟨ss⟩ : KeySpec).listing = .ok ⟨ss⟩ := by
  refine parse_of_compact h ?_
  rw [Text.compact, toList_listing, List.filter_eq_self]
  intro c hc
  rw [(not_isBlank_of_mem_listing h hc).1]
  rfl

end Listing

/-! ### Both together -/

/-- **Listing and reading are inverse to each other.** The listing of what a reader gives has no
blank and no bracket, and reads back under the same options as what it lists. Two readings, under
whatever options, have the same listing only if they are the same. -/
theorem parse_listing {o : Options} {text : String} {ks : KeySpec}
    (h : KeySpec.parse o text = .ok ks) :
    (∀ c ∈ ks.listing.toList, Text.isBlank c = false ∧ c ≠ '[' ∧ c ≠ ']') ∧
    KeySpec.parse o ks.listing = .ok ks ∧
    (KeySpec.parse o ks.listing).map KeySpec.listing = .ok ks.listing ∧
    ∀ o' text' ks', KeySpec.parse o' text' = .ok ks' → ks'.listing = ks.listing → ks' = ks := by
  have hlegible := legible_of_parse h
  have hread := parse_of_legible hlegible
  refine ⟨?_, hread, by rw [hread]; rfl, ?_⟩
  · intro c hc
    exact not_isBlank_of_mem_listing hlegible (toList_listing ks.selections ▸ hc)
  · intro o' text' ks' h' heq
    -- the most permissive reader reads both listings back
    have hks := parse_of_legible fun s hs => (hlegible s hs).lenient
    have hks' := parse_of_legible fun s hs => (legible_of_parse h' s hs).lenient
    have hsame : (Except.ok ks' : Except Fault KeySpec) = .ok ks := by
      rw [← hks, ← hks', heq]
    exact Except.ok.inj hsame

/-- A text after a group, empty steps and an open group, at the limit; and another text with the
same listing, under other options. -/
theorem parse_listing_of_oddities : ∃ ks ks' : KeySpec,
    KeySpec.parse ⟨.lenient, 2⟩ "x[a[b]c], .d, p..q, r[s" = .ok ks ∧
      KeySpec.parse ⟨.lenient, 3⟩ "x.a[b],c,[d],p[.q],r.s]" = .ok ks' ∧
      ks'.listing = ks.listing ∧
      (∀ c ∈ ks.listing.toList, Text.isBlank c = false ∧ c ≠ '[' ∧ c ≠ ']') ∧
      KeySpec.parse ⟨.lenient, 2⟩ ks.listing = .ok ks ∧
      (KeySpec.parse ⟨.lenient, 2⟩ ks.listing).map KeySpec.listing = .ok ks.listing ∧ ks' = ks := by
  let ks : KeySpec :=
    ⟨[⟨["x", "a"], "b"⟩, ⟨[], "c"⟩, ⟨[""], "d"⟩, ⟨["p", ""], "q"⟩, ⟨["r"], "s"⟩]⟩
  have h : KeySpec.parse ⟨.lenient, 2⟩ "x[a[b]c], .d, p..q, r[s" = .ok ks := by
    rw [parse_eq_run]
    rfl
  have h' : KeySpec.parse ⟨.lenient, 3⟩ "x.a[b],c,[d],p[.q],r.s]" = .ok ks := by
    rw [parse_eq_run]
    rfl
  obtain ⟨hchars, hread, hagain, hsame⟩ := parse_listing h
  exact ⟨ks, ks, h, h', rfl, hchars, hread, hagain, hsame _ _ ks h' rfl⟩

end Excerpt.Spec
