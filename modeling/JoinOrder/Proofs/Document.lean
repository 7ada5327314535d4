import Mathlib.Data.List.Infix
import JoinOrder.Document.Basic

/-!
# The text of a document

`Document.unquoted` leaves out what stands between the quotes of a text. In the text of a document
without infinite numbers, no name of an infinity is left (`Document.IsFinite.no_infinity`).
-/

namespace JoinOrder
namespace Document

/-- Where a character of a JSON text stands. -/
inductive Place
  | outside
  | between
  /-- Between quotes, after a backslash. -/
  | escaped

/-- The characters of a text that stand outside of its quotes, if the text begins at some place. -/
def unquoted : Place → List Char → List Char
  | _, [] => []
  | .outside, c :: rest =>
    if c = '"' then unquoted .between rest else c :: unquoted .outside rest
  | .between, c :: rest =>
    unquoted (if c = '"' then .outside else if c = '\\' then .escaped else .between) rest
  | .escaped, _ :: rest => unquoted .between rest

/-- Whether a character neither is a quote nor begins the name of an infinity. -/
def isPlain (c : Char) : Bool := c ≠ '"' && c ≠ 'I'

/-- A text of plain characters. -/
def Plain (s : String) : Prop := s.toList.all isPlain = true

/-- A text that closes the quotes that it opens, and names no infinity outside of them. -/
def Balanced (s : String) : Prop :=
  ∃ outside : List Char, 'I' ∉ outside ∧
    ∀ rest, unquoted .outside (s.toList ++ rest) = outside ++ unquoted .outside rest

/-! ## Balanced texts -/

section

variable {s t sep : String} {parts : List String} {cs : List Char} {c : Char} {ascii : Bool}
  {style : Style}

theorem plain_iff : Plain s ↔ ∀ c ∈ s.toList, isPlain c = true := List.all_eq_true

theorem plain_ofList : Plain (.ofList cs) ↔ ∀ c ∈ cs, isPlain c = true := by
  rw [plain_iff, String.toList_ofList]

theorem Plain.append (hs : Plain s) (ht : Plain t) : Plain (s ++ t) := by
  rw [Plain, String.toList_append, List.all_append, hs, ht, Bool.and_self]

theorem Plain.balanced (h : Plain s) : Balanced s := by
  rw [plain_iff] at h
  refine ⟨s.toList, fun hc => absurd (h 'I' hc) (by decide), fun rest => ?_⟩
  generalize s.toList = cs at h
  induction cs with
  | nil => rfl
  | cons c cs ih =>
    rw [List.forall_mem_cons] at h
    have hc : c ≠ '"' := by
      rintro rfl
      exact absurd h.1 (by decide)
    rw [List.cons_append, unquoted, if_neg hc, ih h.2, List.cons_append]

theorem Balanced.append (hs : Balanced s) (ht : Balanced t) : Balanced (s ++ t) := by
  obtain ⟨a, ha, hsa⟩ := hs
  obtain ⟨b, hb, htb⟩ := ht
  refine ⟨a ++ b, by simp [ha, hb], fun rest => ?_⟩
  rw [String.toList_append, List.append_assoc, hsa, htb, List.append_assoc]

theorem balanced_intercalate (hsep : Balanced sep) (h : ∀ s ∈ parts, Balanced s) :
    Balanced (String.intercalate sep parts) := by
  induction parts with
  | nil => exact Plain.balanced rfl
  | cons s rest ih =>
    rw [List.forall_mem_cons] at h
    cases rest with
    | nil =>
      rw [String.intercalate_singleton]
      exact h.1
    | cons t rest =>
      rw [String.intercalate_cons_cons]
      exact (h.1.append hsep).append (ih h.2)

/-- No name of an infinity stands outside of the quotes of a balanced text. -/
theorem Balanced.no_infinity (h : Balanced s) :
    ¬"Infinity".toList <:+: unquoted .outside s.toList := by
  obtain ⟨outside, hI, h⟩ := h
  have hs := h []
  rw [List.append_nil, unquoted, List.append_nil] at hs
  rw [hs]
  exact fun hname => hI (hname.subset (by decide))

/-! ## Quoted texts -/

theorem unquoted_between {cs rest : List Char} (h : ∀ c ∈ cs, c ≠ '"' ∧ c ≠ '\\') :
    unquoted .between (cs ++ rest) = unquoted .between rest := by
  induction cs with
  | nil => rfl
  | cons c cs ih =>
    rw [List.forall_mem_cons] at h
    rw [List.cons_append, unquoted, if_neg h.1.1, if_neg h.1.2, ih h.2]

/-- A backslash takes the next character with it. -/
theorem unquoted_backslash {rest : List Char} :
    unquoted .between ('\\' :: c :: rest) = unquoted .between rest := rfl

theorem hexDigit_ne {n : Nat} (h : n < 16) : Text.hexDigit n ≠ '"' ∧ Text.hexDigit n ≠ '\\' := by
  have hall : ∀ n < 16, Text.hexDigit n ≠ '"' ∧ Text.hexDigit n ≠ '\\' := by decide
  exact hall n h

theorem hex_ne {width n : Nat} : ∀ c ∈ Text.hex width n, c ≠ '"' ∧ c ≠ '\\' := by
  induction width generalizing n with
  | zero => nofun
  | succ width ih =>
    rw [Text.hex]
    intro c hc
    rcases List.mem_append.1 hc with hc | hc
    · exact ih c hc
    · exact List.mem_singleton.1 hc ▸ hexDigit_ne (Nat.mod_lt _ (by decide))

theorem unquoted_unitEscape {n : Nat} {rest : List Char} :
    unquoted .between (unitEscape n ++ rest) = unquoted .between rest := by
  rw [unitEscape, List.cons_append, List.cons_append, unquoted_backslash,
    unquoted_between hex_ne]

/-- A character that was escaped does not close the quotes. -/
theorem unquoted_escape {rest : List Char} :
    unquoted .between (escape ascii c ++ rest) = unquoted .between rest := by
  unfold escape
  dsimp only
  split_ifs with hquote hbackslash
  -- The escapes of two characters are skipped by computation.
  any_goals rfl
  · exact unquoted_unitEscape
  · rw [List.append_assoc, unquoted_unitEscape, unquoted_unitEscape]
  · exact unquoted_between (by simp [hquote, hbackslash])

theorem balanced_quoted : Balanced (quoted style s) := by
  refine ⟨[], nofun, fun rest => ?_⟩
  rw [quoted, String.toList_ofList, List.cons_append, List.cons_append, unquoted, if_pos rfl,
    List.nil_append]
  generalize s.toList = cs
  induction cs with
  | nil => rfl
  | cons c cs ih => rw [List.flatMap_cons, List.append_assoc, List.append_assoc, unquoted_escape,
      ← List.append_assoc, ih]

end

/-! ## Numbers -/

theorem isPlain_of_isDigit {c : Char} (h : c.isDigit = true) : isPlain c = true := by
  rw [isPlain, Bool.and_eq_true, decide_eq_true_iff, decide_eq_true_iff]
  constructor <;> rintro rfl <;> exact absurd h (by decide)

theorem plain_repr {n : Nat} : Plain n.repr := by
  rw [plain_iff, Nat.toList_repr]
  exact fun c hc => isPlain_of_isDigit (Nat.isDigit_of_mem_toDigits (by decide) (by decide) hc)

theorem plain_int {n : Int} : Plain (toString n) := by
  change Plain n.repr
  rw [Int.repr_eq_if]
  split
  · exact plain_repr
  · exact Plain.append rfl plain_repr

section

variable {layout : DecimalLayout} {x : Binary64} {d : Decimal} {digits : List Char} {e : Int}

theorem plain_zeros {n : Nat} : Plain (DecimalLayout.zeros n) :=
  plain_ofList.2 fun _ hc => List.eq_of_mem_replicate hc ▸ rfl

theorem plain_exponentText : Plain (layout.exponentText e) := by
  refine .append (.append ?_ plain_zeros) plain_repr
  split <;> rfl

theorem plain_leadingPoint (h : ∀ c ∈ digits, isPlain c = true) :
    Plain (DecimalLayout.leadingPoint digits) := by
  unfold DecimalLayout.leadingPoint
  split
  · rfl
  · exact plain_ofList.2 h
  · rw [List.forall_mem_cons] at h
    exact plain_ofList.2 (List.forall_mem_cons.2 ⟨h.1, List.forall_mem_cons.2 ⟨rfl, h.2⟩⟩)

theorem plain_write : Plain (layout.write d) := by
  have hdigits : ∀ c ∈ (toString d.digits).toList, isPlain c = true := plain_iff.1 plain_repr
  have hall : Plain (.ofList (toString d.digits).toList) := plain_ofList.2 hdigits
  unfold DecimalLayout.write
  dsimp only
  split_ifs
  · exact .append (plain_leadingPoint hdigits) plain_exponentText
  · exact .append (.append rfl plain_zeros) hall
  · exact .append (.append hall plain_zeros) rfl
  · exact .append (.append (plain_ofList.2 fun c hc => hdigits c (List.mem_of_mem_take hc)) rfl)
      (plain_ofList.2 fun c hc => hdigits c (List.mem_of_mem_drop hc))

theorem plain_numberText (h : x.isInfinite = false) : Plain (numberText x) := by
  match x with
  | .nan | .negativeZero | .finite .zero => rfl
  | .infinity _ => cases h
  | .finite (.ofOdd n k hn) =>
    refine .append ?_ plain_write
    split <;> rfl

end

/-! ## Documents -/

/-- A document without infinite numbers. -/
inductive IsFinite : Document → Prop
  | null : IsFinite .null
  | bool {b : Bool} : IsFinite (.bool b)
  | int {n : Int} : IsFinite (.int n)
  | real {x : Binary64} (h : x.isInfinite = false) : IsFinite (.real x)
  | text {s : String} : IsFinite (.text s)
  | list {items : List Document} (h : ∀ d ∈ items, IsFinite d) : IsFinite (.list items)
  | object {fields : List (String × Document)} (h : ∀ f ∈ fields, IsFinite f.2) :
    IsFinite (.object fields)

/-- An indentation of blanks, as JSON allows them between its tokens. -/
def Style.IsBlank (style : Style) : Prop :=
  ∀ indent, style.indent = some indent → ∀ c ∈ indent.toList, c.isWhitespace = true

section

variable {style : Style} {depth : Nat} {indent first last : String} {parts : List String}
  {d : Document}

theorem isPlain_of_isWhitespace {c : Char} (h : c.isWhitespace = true) : isPlain c = true := by
  rw [isPlain, Bool.and_eq_true, decide_eq_true_iff, decide_eq_true_iff]
  constructor <;> rintro rfl <;> exact absurd h (by decide)

theorem plain_lineStart (h : ∀ c ∈ indent.toList, c.isWhitespace = true) :
    Plain (lineStart indent depth) := by
  refine .append rfl (plain_iff.2 fun c hc => ?_)
  rw [String.toList_join] at hc
  obtain ⟨s, hs, hc⟩ := List.mem_flatMap.1 hc
  exact isPlain_of_isWhitespace (h c (List.eq_of_mem_replicate hs ▸ hc))

theorem balanced_enclosed (hs : style.IsBlank) (hfirst : Plain first) (hlast : Plain last)
    (h : ∀ s ∈ parts, Balanced s) : Balanced (enclosed style depth first last parts) := by
  unfold enclosed
  split
  · exact (hfirst.append hlast).balanced
  · split
    · have hcomma : Plain ", " := rfl
      exact (hfirst.balanced.append (balanced_intercalate hcomma.balanced h)).append hlast.balanced
    · next indent hindent =>
      have hstart : ∀ depth, Plain (lineStart indent depth) := fun _ =>
        plain_lineStart (hs indent hindent)
      have hcomma : Plain "," := rfl
      have hitems := balanced_intercalate (hcomma.append (hstart (depth + 1))).balanced h
      exact ((hfirst.append (hstart _)).balanced.append hitems).append
        (hstart depth).balanced |>.append hlast.balanced

theorem renderItems_eq_map (items : List Document) :
    renderItems style depth items = items.map (render style depth) := by
  induction items with
  | nil => rfl
  | cons d rest ih => rw [renderItems, ih, List.map_cons]

theorem renderFields_eq_map (fields : List (String × Document)) :
    renderFields style depth fields =
      fields.map fun f => quoted style f.1 ++ ": " ++ render style depth f.2 := by
  induction fields with
  | nil => rfl
  | cons f rest ih => rw [renderFields, ih, List.map_cons]

theorem IsFinite.balanced_render (hs : style.IsBlank) (h : d.IsFinite) :
    Balanced (render style depth d) := by
  induction h generalizing depth with
  | null =>
    rw [render]
    exact Plain.balanced rfl
  | @bool b =>
    rw [render]
    cases b <;> exact Plain.balanced rfl
  | int => exact plain_int.balanced
  | real h => exact (plain_numberText h).balanced
  | text => exact balanced_quoted
  | list _ ih =>
    rw [render, renderItems_eq_map]
    exact balanced_enclosed hs rfl rfl (List.forall_mem_map.2 fun d hd => ih d hd)
  | object _ ih =>
    rw [render, renderFields_eq_map]
    refine balanced_enclosed hs rfl rfl (List.forall_mem_map.2 fun f hf => ?_)
    have hcolon : Plain ": " := rfl
    exact (balanced_quoted.append hcolon.balanced).append (ih f hf)

/-- The names of infinities do not stand in a text for a document without infinite numbers, unless
between quotes. -/
theorem IsFinite.no_infinity (hs : style.IsBlank) (h : d.IsFinite) :
    ¬"Infinity".toList <:+: unquoted .outside (d.toText style).toList :=
  (h.balanced_render hs).no_infinity

end

end Document
end JoinOrder
