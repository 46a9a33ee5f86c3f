import Microcode.Json
import Microcode.Proofs.List
import Microcode.Proofs.Text.Hex

/-!
# JSON documents read back

The text of a document tells the document, whatever its layout
(`render_inj`): no two values share a text.

For the induction more is needed, since a text is read among others. A
value is `SelfDelimiting`: where its text begins, with anything behind it,
the value and the end of its text can be told. Its first character tells
of which kind it is (`ctorIdx_eq_of_append_eq`), and then each kind has its
own way of ending.

- A string ends with the first quote that is not escaped. One character is
  read back at a time (`unescape_escape`), so a backslash or a quote within
  the string does not end it.
- An array or object ends with its bracket. Behind each of its items stands
  a comma, the end of a line or the bracket (`afterItem`), and no item
  begins with a bracket that closes.
- A numeral is the exception: it does not show its end. What stands behind
  a value is therefore asked not to begin with a digit, which is so of
  everything that stands behind an item.
-/

namespace Microcode.Json

variable {layout : Layout} {depth : Nat} {closing : Char} {rest rest' : List Char}

/-- What is so of an array or an object if it is so of its items is so of
every document. -/
@[elab_as_elim]
theorem induction {P : Json → Prop} (bool : ∀ b, P (.bool b)) (num : ∀ n, P (.num n))
    (str : ∀ s, P (.str s)) (arr : ∀ items, (∀ item ∈ items, P item) → P (.arr items))
    (obj : ∀ members, (∀ x ∈ members, P x.2) → P (.obj members)) (j : Json) : P j :=
  @Json.rec P (fun items => ∀ item ∈ items, P item) (fun members => ∀ x ∈ members, P x.2)
    (fun x => P x.2) bool num str arr obj
    (List.forall_mem_nil _) (fun _ _ hitem hitems => List.forall_mem_cons.mpr ⟨hitem, hitems⟩)
    (List.forall_mem_nil _) (fun _ _ hx hmembers => List.forall_mem_cons.mpr ⟨hx, hmembers⟩)
    (fun _ _ hvalue => hvalue) j

/-! ## Texts that show where they end -/

def NoDigitNext (rest : List Char) : Prop := ∀ c ∈ rest.head?, ¬ c.isDigit

/-- Where the text of `x` begins, no text of anything else does. -/
def SelfDelimiting {α : Type} (write : α → String) (x : α) : Prop :=
  ∀ y rest rest', NoDigitNext rest → NoDigitNext rest' →
    (write x).toList ++ rest = (write y).toList ++ rest' → x = y ∧ rest = rest'

theorem SelfDelimiting.eq {α : Type} {write : α → String} {x y : α} (h : SelfDelimiting write x)
    (htext : write x = write y) : x = y := by
  have hend : NoDigitNext [] := fun c hc => absurd hc (Option.not_mem_none c)
  exact (h y [] [] hend hend (congrArg (·.toList ++ []) htext)).1

/-! ## Numerals -/

theorem isDigit_of_mem_repr {n : Nat} {c : Char} (h : c ∈ n.repr.toList) : c.isDigit := by
  rw [Nat.toList_repr] at h
  exact Nat.isDigit_of_mem_toDigits (by decide) (by decide) h

theorem selfDelimiting_repr (n : Nat) : SelfDelimiting Nat.repr n := by
  intro m rest rest' hrest hrest' h
  obtain ⟨hnumeral, rfl⟩ := append_eq_append_of_forall (fun c => isDigit_of_mem_repr)
    (fun c => isDigit_of_mem_repr) hrest hrest' h
  have hvalue := congrArg (Nat.ofDigitChars 10 · 0) hnumeral
  simp only [Nat.toList_repr, Nat.ofDigitChars_ten_toDigits] at hvalue
  exact ⟨hvalue, rfl⟩

/-! ## Strings -/

/-- The character that a letter behind a backslash stands for. -/
def escaped? : Char → Option Char
  | '\x22' => some '\x22'
  | '\x5c' => some '\x5c'
  | 'n' => some '\n'
  | 'r' => some '\r'
  | 't' => some '\t'
  | 'b' => some '\x08'
  | 'f' => some '\x0c'
  | _ => none

/-- Reads one character of a string. A quote is none of them. -/
def unescape : List Char → Option (Char × List Char)
  | [] => none
  | '\x22' :: _ => none
  | '\x5c' :: 'u' :: rest => (Hex.value? (rest.take 4)).map fun n => (Char.ofNat n, rest.drop 4)
  | '\x5c' :: c :: rest => (escaped? c).map (·, rest)
  | c :: rest => some (c, rest)

theorem unescape_control {c : Char} (h : c.toNat < 32) (rest : List Char) :
    unescape (backslash :: 'u' :: (Hex.digits 4 c.toNat ++ rest)) = some (c, rest) := by
  have hlen : (Hex.digits 4 c.toNat).length = 4 :=
    Hex.length_digits (Nat.lt_trans h (by decide)) (by decide)
  show (Hex.value? ((Hex.digits 4 c.toNat ++ rest).take 4)).map _ = _
  rw [List.take_left' hlen, List.drop_left' hlen, Hex.value?_digits, Option.map_some,
    Char.ofNat_toNat]

theorem unescape_plain {c : Char} (hquote : c ≠ '\x22') (hbackslash : c ≠ '\x5c')
    (rest : List Char) : unescape (c :: rest) = some (c, rest) := by
  unfold unescape
  split <;> simp_all

/-- A character is read back from how it is written. -/
theorem unescape_escape (c : Char) (rest : List Char) :
    unescape (escape c ++ rest) = some (c, rest) := by
  unfold escape
  split
  next => rfl
  next => rfl
  next => rfl
  next => rfl
  next => rfl
  next => rfl
  next => rfl
  next hquote hbackslash _ _ _ _ _ =>
    split
    next hcontrol => exact unescape_control hcontrol rest
    next => exact unescape_plain hquote hbackslash rest

/-- At each place either both strings go on, with the same character, or
both end. -/
theorem escaped_append_inj {cs ds : List Char}
    (h : cs.flatMap escape ++ '\x22' :: rest = ds.flatMap escape ++ '\x22' :: rest') :
    cs = ds ∧ rest = rest' := by
  have hread := congrArg unescape h
  induction cs generalizing ds with
  | nil =>
      cases ds with
      | nil => exact ⟨rfl, List.tail_eq_of_cons_eq h⟩
      | cons d ds =>
          rw [List.flatMap_cons, List.append_assoc, unescape_escape] at hread
          cases hread
  | cons c cs ih =>
      rw [List.flatMap_cons, List.append_assoc, unescape_escape] at hread
      cases ds with
      | nil => cases hread
      | cons d ds =>
          rw [List.flatMap_cons, List.append_assoc, unescape_escape, Option.some.injEq,
            Prod.mk.injEq] at hread
          obtain ⟨rfl, hrest⟩ := hread
          obtain ⟨rfl, rfl⟩ := ih hrest (congrArg unescape hrest)
          exact ⟨rfl, rfl⟩

theorem toList_quote (s : String) :
    (quote s).toList = '\x22' :: (s.toList.flatMap escape ++ ['\x22']) := by
  simp [quote]

theorem quote_append_inj {s t : String}
    (h : (quote s).toList ++ rest = (quote t).toList ++ rest') : s = t ∧ rest = rest' := by
  simp only [toList_quote, List.cons_append, List.append_assoc] at h
  obtain ⟨hs, rfl⟩ := escaped_append_inj (List.tail_eq_of_cons_eq h)
  exact ⟨String.toList_inj.mp hs, rfl⟩

/-! ## Items between brackets -/

def IsClosing (c : Char) : Prop := c = ']' ∨ c = '\x7d'

/-- What stands behind an item: the items after it, each behind a comma,
and the bracket. -/
def afterItem (layout : Layout) (depth : Nat) (closing : Char) : List String → List Char
  | [] => (layout.newline depth).toList ++ [closing]
  | item :: items =>
      ',' :: ((layout.newline (depth + 1)).toList ++
        (item.toList ++ afterItem layout depth closing items))

theorem toList_newline_indented (depth : Nat) :
    (Layout.indented.newline depth).toList = '\n' :: List.replicate (2 * depth) ' ' :=
  String.toList_ofList

theorem toList_enclose_nil (layout : Layout) (depth : Nat) (opening : String) (closing : Char) :
    (enclose layout depth opening (String.singleton closing) []).toList =
      opening.toList ++ [closing] := by
  rw [enclose, String.toList_append, String.toList_singleton]

theorem toList_enclose_cons (layout : Layout) (depth : Nat) (opening : String) (closing : Char)
    (item : String) (items : List String) :
    (enclose layout depth opening (String.singleton closing) (item :: items)).toList =
      opening.toList ++ ((layout.newline (depth + 1)).toList ++
        (item.toList ++ afterItem layout depth closing items)) := by
  simp only [enclose, String.toList_append, String.toList_intercalate, List.map_cons,
    List.append_assoc, List.append_cancel_left_eq]
  induction items generalizing item with
  | nil => simp [afterItem]
  | cons next items ih =>
      rw [List.map_cons, List.intercalate_cons_cons, List.append_assoc, List.append_assoc, ih next,
        afterItem]
      simp

theorem noDigitNext_afterItem (hclosing : IsClosing closing) (items : List String) :
    NoDigitNext (afterItem layout depth closing items ++ rest) := by
  cases items with
  | nil =>
      rcases hclosing with rfl | rfl <;> cases layout <;>
        simp [NoDigitNext, afterItem, Layout.newline]
  | cons item items => simp [NoDigitNext, afterItem]

theorem afterItem_nil_ne_comma (hclosing : IsClosing closing) :
    afterItem layout depth closing [] ++ rest ≠ ',' :: rest' := by
  rcases hclosing with rfl | rfl <;> cases layout <;> simp [afterItem, Layout.newline]

section

variable {α : Type} {write : α → String} {xs ys : List α}

theorem afterItem_append_inj (hclosing : IsClosing closing)
    (hxs : ∀ x ∈ xs, SelfDelimiting write x)
    (h : afterItem layout depth closing (xs.map write) ++ rest =
      afterItem layout depth closing (ys.map write) ++ rest') : xs = ys ∧ rest = rest' := by
  induction xs generalizing ys with
  | nil =>
      cases ys with
      | nil => exact ⟨rfl, List.append_cancel_left h⟩
      | cons y ys => exact absurd h (afterItem_nil_ne_comma hclosing)
  | cons x xs ih =>
      cases ys with
      | nil => exact absurd h.symm (afterItem_nil_ne_comma hclosing)
      | cons y ys =>
          rw [List.forall_mem_cons] at hxs
          simp only [List.map_cons, afterItem, List.cons_append, List.append_assoc,
            List.cons.injEq, true_and, List.append_cancel_left_eq] at h
          obtain ⟨rfl, htail⟩ := hxs.1 y _ _ (noDigitNext_afterItem hclosing _)
            (noDigitNext_afterItem hclosing _) h
          obtain ⟨rfl, rfl⟩ := ih hxs.2 htail
          exact ⟨rfl, rfl⟩

/-- Behind the opening bracket the closing one stands in an empty value
only. -/
theorem closing_ne_item (hclosing : IsClosing closing)
    (hopens : ∀ y, ∃ c cs, (write y).toList = c :: cs ∧ ¬ IsClosing c) (y : α) :
    closing :: rest ≠ (layout.newline (depth + 1)).toList ++ ((write y).toList ++ rest') := by
  intro h
  cases layout with
  | compact =>
      obtain ⟨c, cs, hy, hc⟩ := hopens y
      rw [hy] at h
      obtain rfl : closing = c := List.head_eq_of_cons_eq h
      exact hc hclosing
  | indented =>
      rw [toList_newline_indented] at h
      obtain rfl : closing = '\n' := List.head_eq_of_cons_eq h
      rcases hclosing with h | h <;> cases h

theorem enclose_append_inj {opening : String} (hclosing : IsClosing closing)
    (hopens : ∀ y, ∃ c cs, (write y).toList = c :: cs ∧ ¬ IsClosing c)
    (hxs : ∀ x ∈ xs, SelfDelimiting write x)
    (h : (enclose layout depth opening (String.singleton closing) (xs.map write)).toList ++ rest =
      (enclose layout depth opening (String.singleton closing) (ys.map write)).toList ++ rest') :
    xs = ys ∧ rest = rest' := by
  cases xs with
  | nil =>
      cases ys with
      | nil => exact ⟨rfl, List.append_cancel_left h⟩
      | cons y ys =>
          simp only [List.map_nil, List.map_cons, toList_enclose_nil, toList_enclose_cons,
            List.append_assoc, List.append_cancel_left_eq] at h
          exact absurd h (closing_ne_item hclosing hopens y)
  | cons x xs =>
      cases ys with
      | nil =>
          simp only [List.map_nil, List.map_cons, toList_enclose_nil, toList_enclose_cons,
            List.append_assoc, List.append_cancel_left_eq] at h
          exact absurd h.symm (closing_ne_item hclosing hopens x)
      | cons y ys =>
          rw [List.forall_mem_cons] at hxs
          simp only [List.map_cons, toList_enclose_cons, List.append_assoc,
            List.append_cancel_left_eq] at h
          obtain ⟨rfl, htail⟩ := hxs.1 y _ _ (noDigitNext_afterItem hclosing _)
            (noDigitNext_afterItem hclosing _) h
          obtain ⟨rfl, rfl⟩ := afterItem_append_inj hclosing hxs.2 htail
          exact ⟨rfl, rfl⟩

end

/-! ## Members -/

theorem renderItems_eq_map (layout : Layout) (depth : Nat) (items : List Json) :
    renderItems layout depth items = items.map (render layout depth) := by
  induction items with
  | nil => rfl
  | cons item items ih => rw [renderItems, ih, List.map_cons]

def renderMember (layout : Layout) (depth : Nat) (x : String × Json) : String :=
  quote x.1 ++ layout.colon ++ x.2.render layout depth

theorem renderMembers_eq_map (layout : Layout) (depth : Nat) (members : List (String × Json)) :
    renderMembers layout depth members = members.map (renderMember layout depth) := by
  induction members with
  | nil => rfl
  | cons x members ih => rw [renderMembers, ih, List.map_cons, renderMember]

theorem selfDelimiting_renderMember {x : String × Json}
    (h : SelfDelimiting (render layout depth) x.2) :
    SelfDelimiting (renderMember layout depth) x := by
  intro y rest rest' hrest hrest' heq
  simp only [renderMember, String.toList_append, List.append_assoc] at heq
  obtain ⟨hkey, heq⟩ := quote_append_inj heq
  obtain ⟨hvalue, rfl⟩ := h y.2 rest rest' hrest hrest' (List.append_cancel_left heq)
  exact ⟨Prod.ext hkey hvalue, rfl⟩

/-! ## Kinds of value -/

/-- The kind of the values that begin with a character, by the place of its
constructor. -/
def kind? (c : Char) : Option Nat :=
  if c.isDigit then some 1
  else if c = 't' ∨ c = 'f' then some 0
  else if c = '\x22' then some 2
  else if c = '[' then some 3
  else if c = '\x7b' then some 4
  else none

theorem not_isClosing_of_kind? {c : Char} {k : Nat} (h : kind? c = some k) : ¬ IsClosing c := by
  intro hclosing
  rcases hclosing with rfl | rfl <;> cases h

theorem exists_toList_enclose (layout : Layout) (depth : Nat) (opening closing : Char)
    (items : List String) : ∃ cs,
      (enclose layout depth (String.singleton opening) (String.singleton closing) items).toList =
        opening :: cs := by
  cases items with
  | nil =>
      rw [toList_enclose_nil, String.toList_singleton]
      exact ⟨[closing], rfl⟩
  | cons item items =>
      rw [toList_enclose_cons, String.toList_singleton]
      exact ⟨_, rfl⟩

theorem exists_toList_render (layout : Layout) (depth : Nat) (j : Json) :
    ∃ c cs, (j.render layout depth).toList = c :: cs ∧ kind? c = some j.ctorIdx := by
  cases j with
  | bool b =>
      cases b with
      | false => exact ⟨'f', ['a', 'l', 's', 'e'], by simp [render], rfl⟩
      | true => exact ⟨'t', ['r', 'u', 'e'], by simp [render], rfl⟩
  | num n =>
      have hne : n.repr.toList ≠ [] := by
        rw [Nat.toList_repr]
        exact Nat.toDigits_ne_nil
      obtain ⟨c, cs, hn⟩ := List.exists_cons_of_ne_nil hne
      have hc : c.isDigit := isDigit_of_mem_repr (hn ▸ List.mem_cons_self)
      exact ⟨c, cs, hn, if_pos hc⟩
  | str s => exact ⟨'\x22', _, toList_quote s, rfl⟩
  | arr items =>
      obtain ⟨cs, hcs⟩ := exists_toList_enclose layout depth '[' ']'
        (renderItems layout (depth + 1) items)
      exact ⟨'[', cs, hcs, rfl⟩
  | obj members =>
      obtain ⟨cs, hcs⟩ := exists_toList_enclose layout depth '\x7b' '\x7d'
        (renderMembers layout (depth + 1) members)
      exact ⟨'\x7b', cs, hcs, rfl⟩

theorem ctorIdx_eq_of_append_eq {j k : Json}
    (h : (j.render layout depth).toList ++ rest = (k.render layout depth).toList ++ rest') :
    j.ctorIdx = k.ctorIdx := by
  obtain ⟨c, cs, hj, hkind⟩ := exists_toList_render layout depth j
  obtain ⟨c', cs', hk, hkind'⟩ := exists_toList_render layout depth k
  rw [hj, hk] at h
  obtain rfl : c = c' := List.head_eq_of_cons_eq h
  exact Option.some.inj (hkind.symm.trans hkind')

/-- No item begins with a closing bracket. -/
theorem item_opens (layout : Layout) (depth : Nat) (item : Json) :
    ∃ c cs, (item.render layout depth).toList = c :: cs ∧ ¬ IsClosing c := by
  obtain ⟨c, cs, hitem, hkind⟩ := exists_toList_render layout depth item
  exact ⟨c, cs, hitem, not_isClosing_of_kind? hkind⟩

theorem member_opens (layout : Layout) (depth : Nat) (x : String × Json) :
    ∃ c cs, (renderMember layout depth x).toList = c :: cs ∧ ¬ IsClosing c := by
  have hquote : ¬ IsClosing '\x22' := not_isClosing_of_kind? rfl
  rw [renderMember, String.toList_append, String.toList_append, toList_quote]
  exact ⟨'\x22', _, rfl, hquote⟩

/-! ## Values -/

theorem bool_append_inj {b b' : Bool}
    (h : ((bool b).render layout depth).toList ++ rest =
      ((bool b').render layout depth).toList ++ rest') : b = b' ∧ rest = rest' := by
  cases b <;> cases b'
  case false.false | true.true => exact ⟨rfl, List.append_cancel_left h⟩
  case false.true | true.false => simp [render] at h

/-- Induction on the value. Once the kinds are known to agree, each kind
goes by its own way of ending. -/
theorem selfDelimiting_render (layout : Layout) (depth : Nat) (j : Json) :
    SelfDelimiting (render layout depth) j := by
  induction j using induction generalizing depth with
  | bool b =>
      intro k rest rest' _ _ h
      have hkind := ctorIdx_eq_of_append_eq h
      cases k with
      | bool b' =>
          obtain ⟨rfl, rfl⟩ := bool_append_inj h
          exact ⟨rfl, rfl⟩
      | _ => cases hkind
  | num n =>
      intro k rest rest' hrest hrest' h
      have hkind := ctorIdx_eq_of_append_eq h
      cases k with
      | num m =>
          obtain ⟨rfl, rfl⟩ := selfDelimiting_repr n m rest rest' hrest hrest' h
          exact ⟨rfl, rfl⟩
      | _ => cases hkind
  | str s =>
      intro k rest rest' _ _ h
      have hkind := ctorIdx_eq_of_append_eq h
      cases k with
      | str t =>
          obtain ⟨rfl, rfl⟩ := quote_append_inj h
          exact ⟨rfl, rfl⟩
      | _ => cases hkind
  | arr items ih =>
      intro k rest rest' _ _ h
      have hkind := ctorIdx_eq_of_append_eq h
      cases k with
      | arr items' =>
          rw [render, render, renderItems_eq_map, renderItems_eq_map] at h
          obtain ⟨rfl, rfl⟩ := enclose_append_inj (.inl rfl) (item_opens layout (depth + 1))
            (fun item hitem => ih item hitem (depth + 1)) h
          exact ⟨rfl, rfl⟩
      | _ => cases hkind
  | obj members ih =>
      intro k rest rest' _ _ h
      have hkind := ctorIdx_eq_of_append_eq h
      cases k with
      | obj members' =>
          rw [render, render, renderMembers_eq_map, renderMembers_eq_map] at h
          obtain ⟨rfl, rfl⟩ := enclose_append_inj (.inr rfl) (member_opens layout (depth + 1))
            (fun x hx => selfDelimiting_renderMember (ih x hx (depth + 1))) h
          exact ⟨rfl, rfl⟩
      | _ => cases hkind

theorem render_inj {j k : Json} : j.render layout depth = k.render layout depth ↔ j = k :=
  ⟨(selfDelimiting_render layout depth j).eq, congrArg _⟩

end Microcode.Json
