import Excerpt.Proofs.Walking
import Excerpt.Spec.Grammar

/-!
# Strict reading accepts the grammar

A strict reader accepts the printed groups whose keys fit the depth limit, and the empty text, and
nothing else; what it reads are the selections of the group.

* `Leads` — reading some characters of a level takes the walk from one state to another;
* `walk_group` — a walk over the print of a group gives its selections (completeness);
* `Reads`, `ReadsOn`, `HasRead` — what a walk has read is the end of a print;
* `walk_reads` — whatever a strict walk accepts is one (soundness);
* `parse_strict_eq_ok_iff` — both together.
-/

namespace Excerpt.Spec

/-- Behind a level that ends: nothing outside every group, and a closing bracket in a group. -/
def Level.EndsAt (level : Level) (rest : List Char) : Prop :=
  rest.head? = level.openedAt.map fun _ => ']'

/-! ### Completeness -/

section Passing

variable {o : Options} {level : Level} {p : Pending} {i : Nat}

theorem walk_end {rest : List Char} (hp : p.isBare = false) (hr : level.EndsAt rest) :
    walk o level rest i p = .ok ⟨p.emit, 1⟩ := by
  unfold Level.EndsAt at hr
  cases rest with
  | nil =>
    have hl : level.openedAt = none := by cases h : level.openedAt <;> simp_all
    exact walk_nil_ok.2 ⟨heed_eq_ok.2 (.inr (objectionAtEnd_none.2 ⟨hl, fun _ => hp⟩)), rfl⟩
  | cons c cs =>
    obtain ⟨q, hq⟩ : ∃ q, level.openedAt = some q := by cases h : level.openedAt <;> simp_all
    obtain rfl : c = ']' := by simpa [hq] using hr
    exact walk_close_ok.2 ⟨heed_eq_ok.2 (.inr (objection_close.2 ⟨by simp [hq], hp⟩)), rfl⟩

end Passing

/-- Reading `chars` in one state, at place `i`, gives `found` and leads to another state, at place
`j`: whatever the walk does from there it does from here. -/
def Leads (o : Options) (level : Level) (chars : List Char) (i : Nat) (p : Pending)
    (found : List Selection) (j : Nat) (q : Pending) : Prop :=
  ∀ cs w, walk o level cs j q = .ok w →
    walk o level (chars ++ cs) i p = .ok ⟨found ++ w.selections, w.consumed + chars.length⟩

section Leads

variable {o : Options} {level : Level} {p q r : Pending} {i j k : Nat}

theorem Leads.refl : Leads o level [] i p [] i p := fun cs w h => by simpa using h

theorem Leads.trans {as bs : List Char} {s t : List Selection} (h : Leads o level as i p s j q)
    (h' : Leads o level bs j q t k r) : Leads o level (as ++ bs) i p (s ++ t) k r := by
  intro cs w hw
  have := h _ _ (h' cs w hw)
  simpa [List.append_assoc, Nat.add_comm, Nat.add_left_comm, Nat.add_assoc] using this

theorem leads_char {c : Char} (hc : isDelimiter c = false) (hp : p.afterGroup = false) :
    Leads o level [c] i p [] (i + 1) (p.extend i c) :=
  fun _ w hw => (walk_char_ok hc).2 ⟨heed_eq_ok.2 (.inr ((objection_char hc).2 hp)), w, hw, rfl⟩

theorem leads_dot (hp : p.afterGroup = false) (hk : p.key ≠ "")
    (hd : p.trajectory.length + 1 ≤ o.depthLimit) :
    Leads o level ['.'] i p [] (i + 1) (p.descend i) :=
  fun _ w hw => walk_dot_ok.2 ⟨heed_eq_ok.2 (.inr (objection_dot.2 ⟨hp, hk⟩)), hd, w, hw, rfl⟩

theorem leads_comma (hp : p.isBare = false) :
    Leads o level [','] i p p.emit (i + 1) (.nextSibling level i) :=
  fun _ w hw => walk_comma_ok.2 ⟨heed_eq_ok.2 (.inr (objection_comma.2 hp)), w, hw, rfl⟩

theorem leads_chars {chars : List Char} (hc : ∀ c ∈ chars, isDelimiter c = false)
    (hp : p.afterGroup = false) :
    ∃ j q, Leads o level chars i p [] j q ∧ q.trajectory = p.trajectory ∧
      q.key.toList = p.key.toList ++ chars ∧ q.afterGroup = false := by
  induction chars generalizing p i with
  | nil => exact ⟨i, p, .refl, rfl, by simp, hp⟩
  | cons c chars ih =>
    have h : Leads o level [c] i p [] (i + 1) (p.extend i c) := leads_char (hc c (by simp)) hp
    have hp' : (p.extend i c).afterGroup = false := hp
    obtain ⟨j, q, hq, ht, hk, ha⟩ := ih (fun c hc' => hc c (List.mem_cons_of_mem _ hc')) hp'
    refine ⟨j, q, by simpa using h.trans hq, ht, ?_, ha⟩
    rw [hk]
    simp [Pending.extend]

end Leads

def Pending.IsFresh (p : Pending) (level : Level) : Prop :=
  p.trajectory = level.inherited ∧ p.key = "" ∧ p.afterGroup = false

theorem Pending.isFresh_start (level : Level) : (Pending.start level).IsFresh level :=
  ⟨rfl, rfl, rfl⟩

theorem Pending.isFresh_nextSibling (level : Level) (i : Nat) :
    (Pending.nextSibling level i).IsFresh level :=
  ⟨rfl, rfl, rfl⟩

section Completeness

variable {o : Options} {level : Level} {p : Pending} {i : Nat}

theorem leads_steps {steps : List Key} (hp : p.afterGroup = false) (hk : p.key = "")
    (hd : p.trajectory.length + steps.length ≤ o.depthLimit) :
    ∃ j q, Leads o level (printSteps steps) i p [] j q ∧
      q.trajectory = p.trajectory ++ texts steps ∧ q.key = "" ∧ q.afterGroup = false := by
  induction steps generalizing p i with
  | nil => exact ⟨i, p, .refl, by simp [texts], hk, hp⟩
  | cons k steps ih =>
    rw [List.length_cons] at hd
    obtain ⟨j, q, hq, ht, hqk, ha⟩ := leads_chars (o := o) (p := p) (i := i)
      (fun c hc => Key.not_isDelimiter_of_mem (k := k) hc) hp
    have hkey : q.key = k.text := by
      rw [← String.toList_inj, hqk, hk]
      simp [Key.chars]
    have hne : q.key ≠ "" := by
      rw [hkey]
      intro h0
      exact k.isKey.1 (by simp [h0])
    have hdot : Leads o level ['.'] j q [] (j + 1) (q.descend j) :=
      leads_dot ha hne (by rw [ht]; omega)
    have htr : (q.descend j).trajectory = p.trajectory ++ [k.text] := by
      simp [Pending.descend, ht, hkey]
    obtain ⟨j', q', hq', ht', hqk', ha'⟩ := ih (p := q.descend j) (i := j + 1) ha rfl
      (by rw [htr]; simp; omega)
    refine ⟨j', q', ?_, ?_, hqk', ha'⟩
    · have := (hq.trans hdot).trans hq'
      simpa [printSteps] using this
    · rw [ht', htr]
      simp [texts]

theorem leads_keys (steps : List Key) (key : Key) (hp : p.IsFresh level)
    (hd : level.inherited.length + steps.length ≤ o.depthLimit) :
    ∃ j q, Leads o level (printSteps steps ++ key.chars) i p [] j q ∧
      q.trajectory = level.inherited ++ texts steps ∧ q.key = key.text ∧
      q.afterGroup = false := by
  obtain ⟨ht, hk, ha⟩ := hp
  obtain ⟨j, q, hq, hqt, hqk, hqa⟩ := leads_steps (o := o) (i := i) ha hk
    (by rw [ht]; exact hd)
  obtain ⟨j', q', hq', hqt', hqk', hqa'⟩ := leads_chars (o := o) (p := q) (i := j)
    (fun c hc => Key.not_isDelimiter_of_mem (k := key) hc) hqa
  refine ⟨j', q', by simpa using hq.trans hq', by rw [hqt', hqt, ht], ?_, hqa'⟩
  rw [← String.toList_inj, hqk', hqk]
  simp [Key.chars]

theorem leads_bracket {body : List Char} {found : List Selection} (hp : p.afterGroup = false)
    (hk : p.key ≠ "") (hd : p.trajectory.length + 1 ≤ o.depthLimit)
    (hw : ∀ cs, walk o ⟨p.groupKeys, some i⟩ (body ++ ']' :: cs) (i + 1)
      (.start ⟨p.groupKeys, some i⟩) = .ok ⟨found, body.length + 1⟩) :
    Leads o level ('[' :: (body ++ [']'])) i p found (i + (body.length + 1) + 1)
      (.behindGroup (i + (body.length + 1))) := by
  intro cs w h
  have hsplit : '[' :: (body ++ [']']) ++ cs = '[' :: (body ++ ']' :: cs) := by simp
  have hdrop : (body ++ ']' :: cs).drop (body.length + 1) = cs := by
    rw [List.append_cons, List.drop_left' (by simp)]
  rw [hsplit]
  have hheed : heed o (p.objection level i '[') = .ok () :=
    heed_eq_ok.2 (.inr (objection_open.2 ⟨hp, hk⟩))
  refine walk_open_ok.2 ⟨hheed, hd, ⟨found, body.length + 1⟩, hw cs, w, ?_, ?_⟩
  · rw [hdrop]
    exact h
  · simp [Nat.add_assoc]

mutual

/-- The print of a term leads to its selections, the last of which may still be pending. -/
theorem leads_term {level : Level} {p : Pending} {i : Nat} (hp : p.IsFresh level) : (t : Term) →
    t.Fits o.depthLimit level.inherited.length →
    ∃ j q found, Leads o level t.print i p found j q ∧ q.isBare = false ∧
      found ++ q.emit = t.selections level.inherited
  | .plain steps key, hf => by
    obtain ⟨j, q, hq, ht, hk, ha⟩ := leads_keys (i := i) steps key hp hf
    have hne : key.text ≠ "" := fun h0 => key.isKey.1 (by simp [h0])
    refine ⟨j, q, [], hq, ?_, ?_⟩
    · simp [Pending.isBare, hk, hne]
    · simp [Pending.emit, hk, hne, ht, Term.selections]
  | .grouped steps key group, hf => by
    obtain ⟨hd, hg⟩ := hf
    have hd' : level.inherited.length + steps.length ≤ o.depthLimit := by omega
    obtain ⟨j, q, hq, ht, hk, ha⟩ := leads_keys (i := i) steps key hp hd'
    have hne : q.key ≠ "" := fun h0 => key.isKey.1 (by simp [← hk, h0])
    have hkeys : q.groupKeys = level.inherited ++ texts steps ++ [key.text] := by
      simp [Pending.groupKeys, ht, hk]
    have hlen : q.groupKeys.length = level.inherited.length + steps.length + 1 := by
      simp [hkeys, texts, Nat.add_assoc]
    have inner := walk_group (i := j + 1)
      (Pending.isFresh_start ⟨q.groupKeys, some j⟩) group (by rw [hlen]; exact hg)
    have hqd : q.trajectory.length + 1 ≤ o.depthLimit := by
      rw [ht, List.length_append, texts, List.length_map]
      omega
    have hb : Leads o level ('[' :: (group.print ++ [']'])) j q (group.selections q.groupKeys)
        (j + (group.print.length + 1) + 1) (.behindGroup (j + (group.print.length + 1))) :=
      leads_bracket ha hne hqd fun cs => inner (']' :: cs) rfl
    have hlead := hq.trans hb
    refine ⟨_, .behindGroup (j + (group.print.length + 1)), group.selections q.groupKeys,
      by simpa [Term.print] using hlead, ?_, ?_⟩
    · simp [Pending.isBare, Pending.behindGroup]
    · simp [Pending.emit, Pending.behindGroup, Term.selections, hkeys]

/-- A walk over the print of a group, up to the end of its level, gives its selections. -/
theorem walk_group {level : Level} {p : Pending} {i : Nat} (hp : p.IsFresh level) : (g : Group) →
    g.Fits o.depthLimit level.inherited.length →
    ∀ rest, level.EndsAt rest →
      walk o level (g.print ++ rest) i p =
        .ok ⟨g.selections level.inherited, g.print.length + 1⟩
  | .one t, hf, rest, hr => by
    obtain ⟨j, q, found, hq, hb, hs⟩ := leads_term (i := i) hp t hf
    have := hq rest _ (walk_end hb hr)
    simpa [Group.print, Group.selections, hs, Nat.add_comm] using this
  | .more t g, hf, rest, hr => by
    obtain ⟨j, q, found, hq, hb, hs⟩ := leads_term (i := i) hp t hf.1
    have hg := walk_group (i := j + 1) (Pending.isFresh_nextSibling level j) g hf.2 rest hr
    have := (hq.trans (leads_comma hb)) _ _ hg
    simpa [Group.print, Group.selections, ← hs, Nat.add_comm, Nat.add_left_comm] using this

end

end Completeness

/-! ### Soundness -/

/-- The print of what stands behind a term: nothing, or a comma and a group. -/
def printMore : Option Group → List Char
  | none => []
  | some g => ',' :: g.print

/-- A term and what stands behind it, as one group. -/
def Term.followedBy (t : Term) : Option Group → Group
  | none => .one t
  | some g => .more t g

/-- The selections of what stands behind a term. -/
def moreSelections (above : List String) : Option Group → List Selection
  | none => []
  | some g => g.selections above

/-- The keys of what stands behind a term fit the limit. -/
def MoreFits (limit depth : Nat) (more : Option Group) : Prop := ∀ g ∈ more, g.Fits limit depth

theorem print_followedBy (t : Term) (more : Option Group) :
    (t.followedBy more).print = t.print ++ printMore more := by
  cases more <;> simp [Term.followedBy, Group.print, printMore]

theorem selections_followedBy (above : List String) (t : Term) (more : Option Group) :
    (t.followedBy more).selections above = t.selections above ++ moreSelections above more := by
  cases more <;> simp [Term.followedBy, Group.selections, moreSelections]

theorem fits_followedBy {limit depth : Nat} {t : Term} {more : Option Group} :
    (t.followedBy more).Fits limit depth ↔ t.Fits limit depth ∧ MoreFits limit depth more := by
  cases more <;> simp [Term.followedBy, Group.Fits, MoreFits]

/-- The walk has read `cs` up to the end of the level, which with `front` before it is the print of
a group. -/
def Reads (o : Options) (level : Level) (front cs : List Char) (w : Walk) : Prop :=
  ∃ (g : Group) (body rest : List Char), cs = body ++ rest ∧ level.EndsAt rest ∧
    front ++ body = g.print ∧ g.Fits o.depthLimit level.inherited.length ∧
    w = ⟨g.selections level.inherited, body.length + 1⟩

/-- The walk has read `cs` up to the end of the level, from behind a term. -/
def ReadsOn (o : Options) (level : Level) (cs : List Char) (w : Walk) : Prop :=
  ∃ (more : Option Group) (rest : List Char), cs = printMore more ++ rest ∧ level.EndsAt rest ∧
    MoreFits o.depthLimit level.inherited.length more ∧
    w = ⟨moreSelections level.inherited more, (printMore more).length + 1⟩

section Soundness

variable {o : Options} {level : Level} {p : Pending} {i : Nat} {cs : List Char} {w : Walk}

theorem Reads.cons {front : List Char} {c : Char} (h : Reads o level (front ++ [c]) cs w) :
    Reads o level front (c :: cs) ⟨w.selections, w.consumed + 1⟩ := by
  obtain ⟨g, body, rest, rfl, hr, hg, hf, rfl⟩ := h
  exact ⟨g, c :: body, rest, rfl, hr, by simpa using hg, hf, by simp⟩

theorem readsOn_end (h : level.EndsAt cs) : ReadsOn o level cs ⟨[], 1⟩ :=
  ⟨none, cs, by simp [printMore], h, by simp [MoreFits], by simp [moreSelections, printMore]⟩

theorem readsOn_comma (h : Reads o level [] cs w) :
    ReadsOn o level (',' :: cs) ⟨w.selections, w.consumed + 1⟩ := by
  obtain ⟨g, body, rest, rfl, hr, hg, hf, rfl⟩ := h
  rw [List.nil_append] at hg
  subst hg
  exact ⟨some g, rest, by simp [printMore], hr, by simpa [MoreFits] using hf,
    by simp [moreSelections, printMore]⟩

theorem ReadsOn.reads (h : ReadsOn o level cs w) (t : Term) {front body : List Char}
    (hp : front ++ body = t.print) (hf : t.Fits o.depthLimit level.inherited.length) :
    Reads o level front (body ++ cs)
      ⟨t.selections level.inherited ++ w.selections, body.length + w.consumed⟩ := by
  obtain ⟨more, rest, rfl, hr, hm, rfl⟩ := h
  refine ⟨t.followedBy more, body ++ printMore more, rest, by simp, hr, ?_,
    fits_followedBy.2 ⟨hf, hm⟩, ?_⟩
  · rw [print_followedBy, ← hp, List.append_assoc]
  · rw [selections_followedBy]
    simp [Nat.add_assoc]

/-- The state inside a term: the keys before its dots are `steps`, and another key has begun. -/
structure Pending.InTerm (p : Pending) (level : Level) (steps : List Key) : Prop where
  /-- The trajectory are the keys of the level and those of the term. -/
  trajectory : p.trajectory = level.inherited ++ texts steps
  /-- What has been read of the next key may stand in a key. -/
  keyChars : ∀ c ∈ p.key.toList, isKeyChar c = true
  /-- No group has been closed in the term. -/
  afterGroup : p.afterGroup = false

namespace Pending

theorem IsFresh.inTerm (h : p.IsFresh level) : p.InTerm level [] :=
  ⟨by simp [h.1, texts], by simp [h.2.1], h.2.2⟩

/-- The key that has been read, once it is complete. -/
def InTerm.completed {steps : List Key} (h : p.InTerm level steps) (hk : p.key ≠ "") : Key :=
  ⟨p.key, by simpa using hk, h.keyChars⟩

variable {steps : List Key}

theorem InTerm.extend {c : Char} (h : p.InTerm level steps) (hc : isKeyChar c = true) :
    (p.extend i c).InTerm level steps where
  trajectory := h.trajectory
  keyChars := by
    intro d hd
    have hd' : d ∈ p.key.toList ∨ d = c := by simpa [Pending.extend] using hd
    rcases hd' with hd' | rfl
    · exact h.keyChars d hd'
    · exact hc
  afterGroup := h.afterGroup

theorem InTerm.descend (h : p.InTerm level steps) (hk : p.key ≠ "") :
    (p.descend i).InTerm level (steps ++ [h.completed hk]) where
  trajectory := by simp [Pending.descend, h.trajectory, texts, InTerm.completed]
  keyChars := by simp [Pending.descend]
  afterGroup := h.afterGroup

theorem InTerm.not_isBare_iff (h : p.InTerm level steps) : p.isBare = false ↔ p.key ≠ "" := by
  simp [Pending.isBare, h.afterGroup]

theorem InTerm.length (h : p.InTerm level steps) :
    p.trajectory.length = level.inherited.length + steps.length := by
  simp [h.trajectory, texts]

end Pending

/-- A term ends with the key that has been read, and what stands behind it has been read. -/
theorem Pending.InTerm.reads {steps : List Key} (h : p.InTerm level steps) (hk : p.key ≠ "")
    (hd : level.inherited.length + steps.length ≤ o.depthLimit) (hw : ReadsOn o level cs w) :
    Reads o level (printSteps steps ++ p.key.toList) cs ⟨p.emit ++ w.selections, w.consumed⟩ := by
  have hemit : p.emit = (Term.plain steps (h.completed hk)).selections level.inherited := by
    simp [Pending.emit, hk, Term.selections, h.trajectory, InTerm.completed]
  have hprint : printSteps steps ++ p.key.toList ++ [] =
      (Term.plain steps (h.completed hk)).print := by simp [Term.print, InTerm.completed, Key.chars]
  rw [hemit]
  simpa using hw.reads (.plain steps (h.completed hk)) hprint hd

/-- A term ends with a closed group below the key that has been read, and what stands behind it has
been read. -/
theorem Pending.InTerm.reads_group {steps : List Key} {nested : Walk}
    (h : p.InTerm level steps) (hk : p.key ≠ "")
    (hd : level.inherited.length + steps.length + 1 ≤ o.depthLimit)
    (hn : Reads o ⟨p.groupKeys, some i⟩ [] cs nested)
    (hw : ReadsOn o level (cs.drop nested.consumed) w) :
    Reads o level (printSteps steps ++ p.key.toList) ('[' :: cs)
      ⟨nested.selections ++ w.selections, w.consumed + nested.consumed + 1⟩ := by
  obtain ⟨g, body, rest, rfl, hr, hg, hf, rfl⟩ := hn
  obtain ⟨rest, rfl⟩ : ∃ cs, rest = ']' :: cs := by
    cases rest with
    | nil => simp [Level.EndsAt] at hr
    | cons c cs => exact ⟨cs, by simpa [Level.EndsAt] using hr⟩
  have hdrop : (body ++ ']' :: rest).drop (body.length + 1) = rest := by
    rw [List.append_cons, List.drop_left' (by simp)]
  rw [List.nil_append] at hg
  subst hg
  have hkeys : p.groupKeys = level.inherited ++ texts steps ++ [p.key] := by
    rw [Pending.groupKeys, h.trajectory]
  have hlen : p.groupKeys.length = level.inherited.length + steps.length + 1 := by
    rw [Pending.length_groupKeys, h.length]
  have hprint : printSteps steps ++ p.key.toList ++ '[' :: (g.print ++ [']']) =
      (Term.grouped steps (h.completed hk) g).print := by
    simp [Term.print, InTerm.completed, Key.chars]
  rw [hdrop] at hw
  have hfits : (Term.grouped steps (h.completed hk) g).Fits o.depthLimit level.inherited.length :=
    ⟨hd, hlen ▸ hf⟩
  have := hw.reads (.grouped steps (h.completed hk) g) hprint hfits
  simpa [Term.selections, hkeys, InTerm.completed, Nat.add_comm, Nat.add_left_comm] using this

/-- What a strict walk has read from a state on: from inside a term a group, up to the end of the
level, and from behind a group what stands behind a term. -/
def HasRead (o : Options) (level : Level) (p : Pending) (cs : List Char) (w : Walk) : Prop :=
  (∀ steps, p.InTerm level steps → level.inherited.length + steps.length ≤ o.depthLimit →
    (cs = [] → p.last.isSome ∨ level.openedAt.isSome) →
    Reads o level (printSteps steps ++ p.key.toList) cs w) ∧
  (p.afterGroup = true → p.key = "" → level.inherited.length ≤ o.depthLimit →
    ReadsOn o level cs w)

/-- Where no group has been closed, only the inside of a term counts. -/
theorem hasRead_of_inTerm (ha : p.afterGroup = false)
    (h : ∀ steps, p.InTerm level steps → level.inherited.length + steps.length ≤ o.depthLimit →
      Reads o level (printSteps steps ++ p.key.toList) cs w) : HasRead o level p cs w :=
  ⟨fun steps hp hd _ => h steps hp hd, fun hgroup => by simp [ha] at hgroup⟩

/-- Where a term ends, what stands behind it has been read. -/
theorem hasRead_of_readsOn
    (hb : (cs = [] → p.last.isSome ∨ level.openedAt.isSome) → p.isBare = false)
    (h : level.inherited.length ≤ o.depthLimit → ReadsOn o level cs w) :
    HasRead o level p cs ⟨p.emit ++ w.selections, w.consumed⟩ := by
  refine ⟨fun steps hp hd hlast => ?_, fun _ hk hd => by simpa [Pending.emit, hk] using h hd⟩
  exact hp.reads (hp.not_isBare_iff.1 (hb hlast)) hd (h (by omega))

theorem hasRead_nil (h : p.objectionAtEnd level = none) : HasRead o level p [] ⟨p.emit, 1⟩ := by
  obtain ⟨hl, hb⟩ := objectionAtEnd_none.1 h
  have hend : level.EndsAt [] := by simp [Level.EndsAt, hl]
  simpa using hasRead_of_readsOn (fun hlast => hb (by simpa [hl] using hlast rfl))
    fun _ => readsOn_end (o := o) hend

/-- A comma: the term is complete, and a group stands behind the comma. -/
theorem hasRead_comma (h : p.objection level i ',' = none)
    (htail : HasRead o level (.nextSibling level i) cs w) :
    HasRead o level p (',' :: cs) ⟨p.emit ++ w.selections, w.consumed + 1⟩ := by
  refine hasRead_of_readsOn (w := ⟨w.selections, w.consumed + 1⟩) (fun _ => objection_comma.1 h)
    fun hd => ?_
  have hfresh := Pending.isFresh_nextSibling level i
  have hread := htail.1 [] hfresh.inTerm (by simpa using hd) fun _ => .inl rfl
  exact readsOn_comma (by simpa [printSteps, Pending.nextSibling] using hread)

/-- A closing bracket: the level ends. -/
theorem hasRead_close (h : p.objection level i ']' = none) :
    HasRead o level p (']' :: cs) ⟨p.emit, 1⟩ := by
  obtain ⟨hl, hb⟩ := objection_close.1 h
  have hend : level.EndsAt (']' :: cs) := by
    obtain ⟨q, hq⟩ := Option.isSome_iff_exists.1 hl
    simp [Level.EndsAt, hq]
  simpa using hasRead_of_readsOn (fun _ => hb) fun _ => readsOn_end (o := o) hend

/-- A dot: the key becomes a step. -/
theorem hasRead_dot (h : p.objection level i '.' = none)
    (hd : p.trajectory.length + 1 ≤ o.depthLimit)
    (htail : HasRead o level (p.descend i) cs w) :
    HasRead o level p ('.' :: cs) ⟨w.selections, w.consumed + 1⟩ := by
  obtain ⟨ha, hk⟩ := objection_dot.1 h
  refine hasRead_of_inTerm ha fun steps hp _ => Reads.cons ?_
  have hlen := hp.length
  have hread := htail.1 _ (hp.descend hk) (by simp; omega) fun _ => .inl rfl
  simpa [printSteps, Pending.descend, Key.chars, Pending.InTerm.completed] using hread

/-- An opening bracket: the group below the key is read, and what stands behind it. -/
theorem hasRead_open {nested : Walk} (h : p.objection level i '[' = none)
    (hd : p.trajectory.length + 1 ≤ o.depthLimit)
    (hnested : HasRead o ⟨p.groupKeys, some i⟩ (.start ⟨p.groupKeys, some i⟩) cs nested)
    (htail : HasRead o level (.behindGroup (i + nested.consumed)) (cs.drop nested.consumed) w) :
    HasRead o level p ('[' :: cs)
      ⟨nested.selections ++ w.selections, w.consumed + nested.consumed + 1⟩ := by
  obtain ⟨ha, hk⟩ := objection_open.1 h
  refine hasRead_of_inTerm ha fun steps hp hsteps => ?_
  have hlen := hp.length
  have hinner := hnested.1 [] (Pending.isFresh_start _).inTerm (by simp; omega) fun _ => .inr rfl
  have hbehind := htail.2 rfl rfl (by omega)
  exact hp.reads_group (i := i) hk (by omega)
    (by simpa [printSteps, Pending.start] using hinner) hbehind

/-- Any other character belongs to the key. -/
theorem hasRead_char {c : Char} (hdel : isDelimiter c = false) (hblank : Text.isBlank c = false)
    (h : p.objection level i c = none) (htail : HasRead o level (p.extend i c) cs w) :
    HasRead o level p (c :: cs) ⟨w.selections, w.consumed + 1⟩ := by
  have hkey : isKeyChar c = true := by simp [isKeyChar, hdel, hblank]
  refine hasRead_of_inTerm ((objection_char hdel).1 h) fun steps hp hd => Reads.cons ?_
  simpa [Pending.extend] using htail.1 steps (hp.extend hkey) hd fun _ => .inl rfl

end Soundness

/-- **Soundness.** A strict walk that succeeds has read a group: from inside a term up to the end of
the level, or from behind a term. -/
theorem walk_reads {o : Options} (ho : o.mode = .strict) (level : Level) (cs : List Char) (i : Nat)
    (p : Pending) (hcs : ∀ c ∈ cs, Text.isBlank c = false) (w : Walk)
    (hw : walk o level cs i p = .ok w) : HasRead o level p cs w := by
  induction level, cs, i, p using walk.induct generalizing w with
  | case1 level i p =>
    obtain ⟨hheed, rfl⟩ := walk_nil_ok.1 hw
    exact hasRead_nil ((heed_strict ho).1 hheed)
  | case2 level c cs i p ihComma ihInner ihBehind ihDot ihChar =>
    obtain ⟨hc, hcs'⟩ := List.forall_mem_cons.1 hcs
    rcases delimiter_cases c with rfl | rfl | rfl | rfl | hdel
    · obtain ⟨hheed, tail, htail, rfl⟩ := walk_comma_ok.1 hw
      exact hasRead_comma ((heed_strict ho).1 hheed) (ihComma hcs' tail htail)
    · obtain ⟨hheed, hd, tail, htail, rfl⟩ := walk_dot_ok.1 hw
      exact hasRead_dot ((heed_strict ho).1 hheed) hd (ihDot hcs' tail htail)
    · obtain ⟨hheed, hd, nested, hnested, tail, htail, rfl⟩ := walk_open_ok.1 hw
      have hdrop : ∀ c ∈ cs.drop nested.consumed, Text.isBlank c = false :=
        fun c hmem => hcs' c (List.mem_of_mem_drop hmem)
      exact hasRead_open ((heed_strict ho).1 hheed) hd (ihInner hcs' nested hnested)
        (ihBehind nested hdrop tail htail)
    · obtain ⟨hheed, rfl⟩ := walk_close_ok.1 hw
      exact hasRead_close ((heed_strict ho).1 hheed)
    · obtain ⟨hheed, tail, htail, rfl⟩ := (walk_char_ok hdel).1 hw
      exact hasRead_char hdel hc ((heed_strict ho).1 hheed) (ihChar hcs' tail htail)

/-! ### Both together -/

theorem not_isBlank_of_mem_compact {text : String} :
    ∀ c ∈ Text.compact text, Text.isBlank c = false :=
  fun _ hc => (Text.mem_compact.1 hc).2

/-- **Strict reading accepts the grammar.** A strict reader accepts a text just if it is empty but
for its blanks, or the print of a group with not too many keys before any dot or bracket; and it
reads the selections of that group, one for each term without a group, from left to right. -/
theorem parse_strict_eq_ok_iff {o : Options} (ho : o.mode = .strict) (text : String)
    (ks : KeySpec) :
    KeySpec.parse o text = .ok ks ↔
      (Text.compact text = [] ∧ ks.selections = []) ∨
        ∃ g : Group, Text.compact text = g.print ∧ g.Fits o.depthLimit 0 ∧
          ks.selections = g.selections [] := by
  rw [parse_eq_ok_iff]
  have hfresh := Pending.isFresh_start .top
  constructor
  · rintro ⟨w, hw, rfl⟩
    by_cases hc : Text.compact text = []
    · rw [hc] at hw
      obtain ⟨-, rfl⟩ := walk_nil_ok.1 hw
      exact .inl ⟨hc, rfl⟩
    · obtain ⟨g, body, rest, hsplit, hr, hg, hf, rfl⟩ :=
        (walk_reads ho .top _ 0 _ not_isBlank_of_mem_compact w hw).1 [] hfresh.inTerm
          (Nat.zero_le _) (fun h => absurd h hc)
      have hrest : rest = [] := by simpa [Level.EndsAt, Level.top] using hr
      refine .inr ⟨g, ?_, hf, rfl⟩
      rw [hsplit, ← hg, hrest]
      simp [printSteps, Pending.start]
  · rintro (⟨hc, hs⟩ | ⟨g, hc, hf, hs⟩)
    · refine ⟨⟨[], 1⟩, ?_, by cases ks; simp_all⟩
      rw [hc]
      exact walk_nil_ok.2 ⟨heed_eq_ok.2 (.inr rfl), rfl⟩
    · have hw := walk_group (i := 0) hfresh g hf [] rfl
      rw [List.append_nil] at hw
      exact ⟨_, hc ▸ hw, by cases ks; simp_all [Level.top]⟩

/-- A text with blanks and with a group in a group, whose longest trajectory has as many keys as the
limit allows. -/
theorem parse_strict_nested_groups :
    (⟨.strict, 3⟩ : Options).mode = .strict ∧
      KeySpec.parse ⟨.strict, 3⟩ "a, b [c.d[e] , f]" =
        .ok ⟨[⟨[], "a"⟩, ⟨["b", "c", "d"], "e"⟩, ⟨["b"], "f"⟩]⟩ := by
  refine ⟨rfl, (parse_strict_eq_ok_iff rfl _ _).2 (.inr ?_)⟩
  let a : Key := ⟨"a", by decide +kernel⟩
  let b : Key := ⟨"b", by decide +kernel⟩
  let c : Key := ⟨"c", by decide +kernel⟩
  let d : Key := ⟨"d", by decide +kernel⟩
  let e : Key := ⟨"e", by decide +kernel⟩
  let f : Key := ⟨"f", by decide +kernel⟩
  let below : Group := .more (.grouped [c] d (.one (.plain [] e))) (.one (.plain [] f))
  refine ⟨.more (.plain [] a) (.one (.grouped [] b below)), by decide +kernel, ?_, rfl⟩
  simp [below, Group.Fits, Term.Fits, Options.depthLimit, depthCeiling]

end Excerpt.Spec
