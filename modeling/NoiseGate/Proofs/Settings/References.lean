import Mathlib.Logic.ExistsUnique
import NoiseGate.Settings.Expansion

/-!
# References are replaced in one pass

Every text is made in one way only of literal text, closed references, and what is left from a
reference that is not closed. Expansion puts values in the place of the references and keeps the
rest. What the values contain does not matter.
-/

namespace NoiseGate

def opening : Text := ['$', '\x7b']

/-- Text in which no reference begins. -/
def IsLiteral (text : Text) : Prop := ¬ opening <:+: text

/-- Nothing, or text from a reference on that is not closed. -/
def IsUnclosed (text : Text) : Prop := text = [] ∨ opening <+: text ∧ '\x7d' ∉ text

/-- A closed reference with the literal text behind it. -/
structure Reference where
  name : Text
  behind : Text
  closed : '\x7d' ∉ name
  literal : IsLiteral behind

structure Template where
  lead : Text
  references : List Reference
  rest : Text
  literal : IsLiteral lead
  unclosed : IsUnclosed rest

namespace Reference

def text (r : Reference) : Text := opening ++ r.name ++ '\x7d' :: r.behind

def fill (value : Text → Text) (r : Reference) : Text := value r.name ++ r.behind

theorem text_append (r : Reference) (more : Text) :
    r.text ++ more = '$' :: '\x7b' :: (r.name ++ '\x7d' :: (r.behind ++ more)) := by
  simp [text, opening]

end Reference

namespace Template

def text (t : Template) : Text := t.lead ++ (t.references.flatMap Reference.text ++ t.rest)

/-- The template with values in the place of its references. -/
def fill (value : Text → Text) (t : Template) : Text :=
  t.lead ++ (t.references.flatMap (Reference.fill value) ++ t.rest)

end Template

/-! ### Where references begin -/

theorem opening_prefix_iff (c d : Char) (text : Text) :
    opening <+: c :: d :: text ↔ c = '$' ∧ d = '\x7b' := by
  simp [opening, List.cons_prefix_cons, eq_comm]

theorem not_opening_prefix_singleton (c : Char) : ¬ opening <+: [c] := by
  intro h
  exact absurd h.length_le (by simp [opening])

theorem isLiteral_nil : IsLiteral [] := by
  intro h
  cases List.infix_nil.mp h

theorem isLiteral_cons_iff (c : Char) (text : Text) :
    IsLiteral (c :: text) ↔ ¬ opening <+: c :: text ∧ IsLiteral text := by
  rw [IsLiteral, List.infix_cons_iff, not_or, IsLiteral]

/-- Where literal text may end: with the whole text, or where a reference begins. -/
def Opens (text : Text) : Prop := text = [] ∨ opening <+: text

theorem opens_references (references : List Reference) (rest : Text) (h : IsUnclosed rest) :
    Opens (references.flatMap Reference.text ++ rest) := by
  cases references with
  | nil => exact h.imp_right And.left
  | cons r references =>
    rw [List.flatMap_cons, List.append_assoc, r.text_append]
    exact .inr ((opening_prefix_iff _ _ _).mpr ⟨rfl, rfl⟩)

theorem not_opening_prefix_append {c : Char} {lead behind : Text} (hl : IsLiteral (c :: lead))
    (ho : Opens behind) : ¬ opening <+: c :: (lead ++ behind) := by
  cases lead with
  | cons d lead =>
    have hlead := ((isLiteral_cons_iff _ _).mp hl).1
    rw [opening_prefix_iff] at hlead
    rwa [List.cons_append, opening_prefix_iff]
  | nil =>
    rcases ho with rfl | ⟨more, rfl⟩
    · exact not_opening_prefix_singleton c
    · intro h
      change opening <+: c :: '$' :: '\x7b' :: more at h
      rw [opening_prefix_iff] at h
      exact absurd h.2 (by decide)

/-! ### One way to take a text apart -/

theorem literal_unique {lead lead' behind behind' : Text} (hl : IsLiteral lead)
    (hl' : IsLiteral lead') (ho : Opens behind) (ho' : Opens behind')
    (h : lead ++ behind = lead' ++ behind') : lead = lead' ∧ behind = behind' := by
  induction lead generalizing lead' with
  | nil =>
    cases lead' with
    | nil => exact ⟨rfl, h⟩
    | cons c lead' =>
      rw [List.nil_append] at h
      rcases ho with rfl | hopen
      · cases h
      · rw [h] at hopen
        exact absurd hopen (not_opening_prefix_append hl' ho')
  | cons c lead ih =>
    cases lead' with
    | nil =>
      rw [List.nil_append] at h
      rcases ho' with rfl | hopen
      · cases h
      · rw [← h] at hopen
        exact absurd hopen (not_opening_prefix_append hl ho)
    | cons d lead' =>
      obtain ⟨rfl, hrest⟩ := List.cons.inj h
      obtain ⟨rfl, hbehind⟩ :=
        ih ((isLiteral_cons_iff _ _).mp hl).2 ((isLiteral_cons_iff _ _).mp hl').2 hrest
      exact ⟨rfl, hbehind⟩

variable {mark : Char}

theorem takeWhile_mark (name behind : Text) (hn : mark ∉ name) :
    (name ++ mark :: behind).takeWhile (· ≠ mark) = name := by
  rw [List.takeWhile_append_of_pos, List.takeWhile_cons_of_neg (by simp), List.append_nil]
  intro c hc
  exact decide_eq_true fun h => hn (h ▸ hc)

theorem dropWhile_mark (name behind : Text) (hn : mark ∉ name) :
    (name ++ mark :: behind).dropWhile (· ≠ mark) = mark :: behind := by
  rw [List.dropWhile_append_of_pos, List.dropWhile_cons_of_neg (by simp)]
  intro c hc
  exact decide_eq_true fun h => hn (h ▸ hc)

theorem name_unique {name name' behind behind' : Text} (hn : mark ∉ name) (hn' : mark ∉ name')
    (h : name ++ mark :: behind = name' ++ mark :: behind') : name = name' ∧ behind = behind' := by
  have hname : name = name' := by
    rw [← takeWhile_mark name behind hn, h, takeWhile_mark name' behind' hn']
  subst hname
  exact ⟨rfl, (List.cons.inj (List.append_cancel_left h)).2⟩

theorem IsUnclosed.ne_reference {rest : Text} (h : IsUnclosed rest) (r : Reference) (more : Text) :
    rest ≠ r.text ++ more := by
  rintro rfl
  rw [r.text_append] at h
  rcases h with h | ⟨-, h⟩
  · cases h
  · exact h (by simp)

theorem references_unique {lead lead' rest rest' : Text} {references references' : List Reference}
    (hl : IsLiteral lead) (hl' : IsLiteral lead') (hr : IsUnclosed rest) (hr' : IsUnclosed rest')
    (h : lead ++ (references.flatMap Reference.text ++ rest) =
      lead' ++ (references'.flatMap Reference.text ++ rest')) :
    lead = lead' ∧ references = references' ∧ rest = rest' := by
  induction references generalizing lead lead' references' with
  | nil =>
    obtain ⟨hlead, h⟩ := literal_unique hl hl' (opens_references _ _ hr) (opens_references _ _ hr') h
    cases references' with
    | nil => exact ⟨hlead, rfl, h⟩
    | cons r references' =>
      rw [List.flatMap_cons, List.append_assoc] at h
      exact absurd h (hr.ne_reference r _)
  | cons r references ih =>
    obtain ⟨hlead, h⟩ := literal_unique hl hl' (opens_references _ _ hr) (opens_references _ _ hr') h
    cases references' with
    | nil =>
      rw [List.flatMap_cons, List.append_assoc] at h
      exact absurd h.symm (hr'.ne_reference r _)
    | cons r' references' =>
      rw [List.flatMap_cons, List.append_assoc, r.text_append, List.flatMap_cons, List.append_assoc,
        r'.text_append] at h
      obtain ⟨hname, h⟩ := name_unique r.closed r'.closed (List.cons.inj (List.cons.inj h).2).2
      obtain ⟨hbehind, hrest, hunclosed⟩ := ih r.literal r'.literal h
      obtain ⟨name, behind, _, _⟩ := r
      obtain ⟨name', behind', _, _⟩ := r'
      subst hname hbehind hrest
      exact ⟨hlead, rfl, hunclosed⟩

theorem Template.text_injective {t u : Template} (h : t.text = u.text) : t = u := by
  obtain ⟨hlead, hreferences, hrest⟩ := references_unique t.literal u.literal t.unclosed u.unclosed h
  obtain ⟨lead, references, rest, _, _⟩ := t
  obtain ⟨lead', references', rest', _, _⟩ := u
  subst hlead hreferences hrest
  rfl

/-- Every text is made of references and what stands between them. -/
theorem exists_template (text : Text) : ∃ t : Template, t.text = text := by
  fun_induction references text with
  | case1 => exact ⟨⟨[], [], [], isLiteral_nil, .inl rfl⟩, rfl⟩
  | case2 c =>
    have hc : IsLiteral [c] :=
      (isLiteral_cons_iff _ _).mpr ⟨not_opening_prefix_singleton c, isLiteral_nil⟩
    exact ⟨⟨[c], [], [], hc, .inl rfl⟩, rfl⟩
  | case3 c d rest hopen hclose ih =>
    obtain ⟨name, behind, rfl, hname⟩ := List.eq_append_cons_of_mem hclose
    rw [dropWhile_mark name behind hname, List.drop_one, List.tail_cons] at ih
    obtain ⟨t, rfl⟩ := ih
    obtain ⟨rfl, rfl⟩ := hopen
    refine ⟨⟨[], ⟨name, t.lead, hname, t.literal⟩ :: t.references, t.rest, isLiteral_nil,
      t.unclosed⟩, ?_⟩
    rw [Template.text, List.flatMap_cons, List.append_assoc, Reference.text_append]
    rfl
  | case4 c d rest hopen hclose =>
    have hrest : IsUnclosed (c :: d :: rest) := by
      refine .inr ⟨(opening_prefix_iff c d rest).mpr hopen, ?_⟩
      obtain ⟨rfl, rfl⟩ := hopen
      simpa using hclose
    exact ⟨⟨[], [], _, isLiteral_nil, hrest⟩, rfl⟩
  | case5 c d rest hopen ih =>
    obtain ⟨t, ht⟩ := ih
    have hlead : IsLiteral (c :: t.lead) := by
      refine (isLiteral_cons_iff c t.lead).mpr ⟨?_, t.literal⟩
      intro h
      have hwhole : opening <+: c :: t.text := h.trans ⟨_, rfl⟩
      rw [ht, opening_prefix_iff] at hwhole
      exact hopen hwhole
    refine ⟨⟨c :: t.lead, t.references, t.rest, hlead, t.unclosed⟩, ?_⟩
    rw [← ht]
    rfl

/-! ### Values -/

namespace Environment

theorem after?_eq_some_iff (start text rest : Text) :
    after? start text = some rest ↔ text = start ++ rest := by
  induction start generalizing text with
  | nil => simp [after?]
  | cons c start ih =>
    cases text with
    | nil => simp [after?]
    | cons d text =>
      by_cases hc : c = d
      · simp [after?, hc, ih]
      · simp [after?, hc, Ne.symm hc]

theorem after?_entry (name other value : Text) (hn : '=' ∉ name) (ho : '=' ∉ other) :
    after? (entry name []) (entry other value) = if name = other then some value else none := by
  have hsome (rest : Text) : after? (entry name []) (entry other value) = some rest ↔
      name = other ∧ value = rest := by
    rw [after?_eq_some_iff, entry, entry, List.append_assoc, List.singleton_append]
    constructor
    · intro h
      obtain ⟨hname, hvalue⟩ := name_unique ho hn h
      exact ⟨hname.symm, hvalue⟩
    · rintro ⟨rfl, rfl⟩
      rfl
  by_cases hname : name = other
  · rw [if_pos hname]
    exact (hsome value).mpr ⟨hname, rfl⟩
  · rw [if_neg hname, Option.eq_none_iff_forall_ne_some]
    intro rest hrest
    exact hname ((hsome rest).mp hrest).1

theorem get?_eq_lookup (e : Environment) (name : Text) (he : ∀ b ∈ e.bindings, '=' ∉ b.1)
    (hn : '=' ∉ name) : e.get? name = e.bindings.lookup name := by
  rw [get?]
  generalize e.bindings = bindings at he ⊢
  induction bindings with
  | nil => rfl
  | cons b bindings ih =>
    obtain ⟨other, value⟩ := b
    obtain ⟨hother, hrest⟩ := List.forall_mem_cons.mp he
    rw [List.findSome?_cons, List.lookup_cons, ih hrest]
    dsimp only
    rw [after?_entry name other value hn hother]
    by_cases hname : name = other
    · rw [if_pos hname, beq_iff_eq.mpr hname]
    · rw [if_neg hname, beq_false_of_ne hname]

end Environment

/-! ### Expansion -/

variable (value : Text → Text)

theorem expand_reference (name behind : Text) (hn : '\x7d' ∉ name) :
    expand value ('$' :: '\x7b' :: (name ++ '\x7d' :: behind)) =
      value name ++ expand value behind := by
  rw [expand, if_pos ⟨rfl, rfl⟩, if_pos (by simp), takeWhile_mark name behind hn,
    dropWhile_mark name behind hn]
  rfl

theorem expand_unclosed (rest : Text) (h : IsUnclosed rest) : expand value rest = rest := by
  rcases h with rfl | ⟨⟨more, rfl⟩, hclosed⟩
  · rw [expand]
  · have hmore : '\x7d' ∉ more := fun hm => hclosed (List.mem_append_right _ hm)
    change expand value ('$' :: '\x7b' :: more) = _
    rw [expand, if_pos ⟨rfl, rfl⟩, if_neg hmore]
    rfl

theorem expand_cons (c : Char) (text : Text) (h : ¬ opening <+: c :: text) :
    expand value (c :: text) = c :: expand value text := by
  cases text with
  | nil => rw [expand, expand]
  | cons d text =>
    rw [opening_prefix_iff] at h
    rw [expand, if_neg h]

theorem expand_literal (lead behind : Text) (hl : IsLiteral lead) (ho : Opens behind) :
    expand value (lead ++ behind) = lead ++ expand value behind := by
  induction lead with
  | nil => rfl
  | cons c lead ih =>
    rw [List.cons_append, expand_cons value c _ (not_opening_prefix_append hl ho),
      ih ((isLiteral_cons_iff c lead).mp hl).2]
    rfl

theorem expand_text (lead rest : Text) (refs : List Reference) (hl : IsLiteral lead)
    (hr : IsUnclosed rest) :
    expand value (lead ++ (refs.flatMap Reference.text ++ rest)) =
      lead ++ (refs.flatMap (Reference.fill value) ++ rest) := by
  rw [expand_literal value _ _ hl (opens_references _ _ hr)]
  congr 1
  induction refs with
  | nil => exact expand_unclosed value rest hr
  | cons r refs ih =>
    rw [List.flatMap_cons, List.append_assoc, r.text_append, expand_reference value _ _ r.closed,
      expand_literal value _ _ r.literal (opens_references _ _ hr), ih, List.flatMap_cons,
      Reference.fill]
    simp only [List.append_assoc]

/-- A text is a template in one way, and expansion fills it in: each closed reference gives way to the
value under its name, once, and all else stays. An empty name has no value, and neither has one that
is not in the environment. -/
theorem expand_fills_template :
    (∀ text : Text, ∃! t : Template, t.text = text) ∧
    (∀ (e : Environment) (t : Template),
      e.expand t.text = t.fill fun name => if name = [] then [] else (e.get? name).getD []) ∧
    ∀ (e : Environment) (name : Text), (∀ b ∈ e.bindings, '=' ∉ b.1) → '=' ∉ name →
      e.get? name = e.bindings.lookup name := by
  refine ⟨?_, ?_, Environment.get?_eq_lookup⟩
  · intro text
    obtain ⟨t, ht⟩ := exists_template text
    refine ⟨t, ht, ?_⟩
    intro u hu
    exact Template.text_injective (hu.trans ht.symm)
  · intro e t
    have hvalue : e.valueOf = fun name => if name = [] then [] else (e.get? name).getD [] := by
      funext name
      cases name <;> rfl
    rw [← hvalue]
    exact expand_text e.valueOf t.lead t.rest t.references t.literal t.unclosed

/-- A dollar in front of a reference, a name with an opening in it, an empty name, a value that looks
like a reference, and a reference that is not closed. -/
theorem expand_fills_nested_references :
    let e : Environment := ⟨[("A".toList, "$\x7bB\x7d".toList), ("$\x7bB".toList, "b".toList)], none⟩
    let text := "$$\x7bA\x7d-$\x7b$\x7bB\x7d\x7d$\x7b\x7d$\x7bC".toList
    (∀ b ∈ e.bindings, '=' ∉ b.1) ∧ '=' ∉ "A".toList ∧
      e.get? "A".toList = e.bindings.lookup "A".toList ∧
      e.expand text = "$$\x7bB\x7d-b\x7d$\x7bC".toList := by
  intro e text
  have he : ∀ b ∈ e.bindings, '=' ∉ b.1 := by decide
  have hname : '=' ∉ "A".toList := by decide
  obtain ⟨-, hfill, hlookup⟩ := expand_fills_template
  let t : Template := ⟨"$".toList,
    [⟨"A".toList, "-".toList, by decide, by unfold IsLiteral; decide⟩,
      ⟨"$\x7bB".toList, "\x7d".toList, by decide, by unfold IsLiteral; decide⟩,
      ⟨[], [], by decide, isLiteral_nil⟩],
    "$\x7bC".toList, by unfold IsLiteral; decide, .inr (by decide)⟩
  have htext : t.text = text := by decide
  refine ⟨he, hname, hlookup e _ he hname, ?_⟩
  rw [← htext, hfill e t]
  decide

end NoiseGate
