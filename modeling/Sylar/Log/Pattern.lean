import Sylar.Log.Entries

/-!
# The language of patterns

`init_items` reads a pattern with one index, which it moves in three places: behind a character, behind
an escape or an item, and through the braces of an item. `scan` is that loop, and `scan_eq` says that it
reads as the machine `initItems` does, which has no index.

What a pattern means is said without either: a pattern is a list of tokens, one behind the other, and its
items are the tokens with runs of text merged. A character stands for a byte of the pattern.
-/

namespace Sylar.Log

/-! ## The loop over the index -/

/-- `pattern_[idx]`, which is the terminating zero behind the pattern. -/
def charAt (p : List Char) (idx : Nat) : Char := p.getD idx '\x00'

/-- The `while` over the braces of an item: where it stops, and the text it passed. -/
def readFormat (p : List Char) (idx : Nat) (format : String) : Nat × String :=
  if idx + 1 < p.length ∧ charAt p (idx + 1) ≠ '\x7d' then
    readFormat p (idx + 1) (format.push (charAt p (idx + 1)))
  else (idx + 1, format)
termination_by p.length - idx

theorem lt_readFormat (p : List Char) (idx : Nat) (format : String) :
    idx < (readFormat p idx format).1 := by
  fun_induction readFormat p idx format with
  | case1 idx format more ih => omega
  | case2 idx format stop => exact Nat.lt_succ_self idx

/-- The loop of `init_items` from an index on. -/
def scan (p : List Char) (idx : Nat) (i : Items) : Option (List FormatterItem) :=
  if idx < p.length then
    if charAt p idx ≠ '%' then scan p (idx + 1) (i.append (charAt p idx))
    else if idx + 1 < p.length ∧ charAt p (idx + 1) = '%' then scan p (idx + 2) (i.append '%')
    else if idx + 1 ≥ p.length ∨ isLegalItem (charAt p (idx + 1)) = false then none
    else if idx + 2 < p.length ∧ charAt p (idx + 2) = '\x7b' then
      if charAt p (readFormat p (idx + 2) "").1 ≠ '\x7d' then none
      else scan p ((readFormat p (idx + 2) "").1 + 1)
        (i.push (charAt p (idx + 1)) (readFormat p (idx + 2) "").2)
    else scan p (idx + 2) (i.push (charAt p (idx + 1)) "")
  else some i.flush
termination_by p.length - idx
decreasing_by
  all_goals try omega
  have := lt_readFormat p (idx + 2) ""
  omega

theorem charAt_of_lt {p : List Char} {idx : Nat} (lt : idx < p.length) :
    p.drop idx = charAt p idx :: p.drop (idx + 1) := by
  rw [charAt, List.getD_eq_getElem p _ lt]
  exact List.drop_eq_getElem_cons lt

theorem charAt_of_ge {p : List Char} {idx : Nat} (ge : p.length ≤ idx) : charAt p idx = '\x00' :=
  List.getD_eq_default p _ ge

theorem drop_of_ge {p : List Char} {idx : Nat} (ge : p.length ≤ idx) : p.drop idx = [] :=
  List.drop_eq_nil_of_le ge

/-- The machine in the braces of an item gets where the `while` gets. -/
theorem readFormat_eq (p : List Char) (idx : Nat) (format : String) (x : Char) (i : Items) :
    initItems (.braces x format) i (p.drop (idx + 1)) =
      if charAt p (readFormat p idx format).1 ≠ '\x7d' then none
      else initItems .text (i.push x (readFormat p idx format).2)
        (p.drop ((readFormat p idx format).1 + 1)) := by
  fun_induction readFormat p idx format with
  | case1 idx format more ih =>
    rw [charAt_of_lt more.1, initItems, if_neg more.2]
    exact ih
  | case2 idx format stop =>
    by_cases inside : idx + 1 < p.length
    · have closed : charAt p (idx + 1) = '\x7d' := by
        by_contra other
        exact stop ⟨inside, other⟩
      rw [charAt_of_lt inside, initItems, if_pos closed, if_neg (not_not.mpr closed)]
    · have unclosed : charAt p (idx + 1) ≠ '\x7d' := by
        rw [charAt_of_ge (by omega)]
        decide
      rw [drop_of_ge (by omega), if_pos unclosed]
      rfl

/-- Behind an item without braces the machine reads on as behind text. -/
theorem initItems_letter (x : Char) (i : Items) {cs : List Char} (bare : cs.head? ≠ some '\x7b') :
    initItems (.letter x) i cs = initItems .text (i.push x "") cs := by
  cases cs with
  | nil => rfl
  | cons c cs =>
    have other : c ≠ '\x7b' := fun same => bare (congrArg some same)
    exact if_neg other

theorem ne_percent_of_legal {c : Char} (legal : isLegalItem c = true) : c ≠ '%' := by
  rintro rfl
  exact absurd legal (by decide)

/-- A percent sign and the letter of an item. -/
theorem initItems_percent {x : Char} (legal : isLegalItem x = true) (i : Items) (cs : List Char) :
    initItems .text i ('%' :: x :: cs) = initItems (.letter x) i cs := by
  rw [initItems, atText, if_pos rfl, initItems, if_neg (ne_percent_of_legal legal), if_pos legal]

/-- The loop at an index reads the rest of the pattern. -/
theorem scan_eq (p : List Char) (idx : Nat) (i : Items) : scan p idx i = initItems .text i (p.drop idx) := by
  fun_induction scan p idx i with
  | case1 idx i inside plain ih =>
    rw [charAt_of_lt inside, initItems, atText, if_neg plain]
    exact ih
  | case2 idx i inside percent escape ih =>
    rw [charAt_of_lt inside, initItems, atText, if_pos (not_not.mp percent), charAt_of_lt escape.1, initItems,
      if_pos escape.2]
    exact ih
  | case3 idx i inside percent escape illegal =>
    rw [charAt_of_lt inside, initItems, atText, if_pos (not_not.mp percent)]
    by_cases more : idx + 1 < p.length
    · have other : charAt p (idx + 1) ≠ '%' := fun same => escape ⟨more, same⟩
      have none : ¬ isLegalItem (charAt p (idx + 1)) = true := by
        rcases illegal with ge | bad
        · omega
        · rw [bad]
          decide
      rw [charAt_of_lt more, initItems, if_neg other, if_neg none]
    · rw [drop_of_ge (by omega)]
      rfl
  | case4 idx i inside percent escape illegal braces unclosed =>
    have legal : isLegalItem (charAt p (idx + 1)) = true := by simpa using (not_or.mp illegal).2
    have more : idx + 1 < p.length := by omega
    rw [charAt_of_lt inside, not_not.mp percent, charAt_of_lt more, initItems_percent legal,
      charAt_of_lt braces.1, initItems, if_pos braces.2, readFormat_eq, if_pos unclosed]
  | case5 idx i inside percent escape illegal braces closed ih =>
    have legal : isLegalItem (charAt p (idx + 1)) = true := by simpa using (not_or.mp illegal).2
    have more : idx + 1 < p.length := by omega
    rw [charAt_of_lt inside, not_not.mp percent, charAt_of_lt more, initItems_percent legal,
      charAt_of_lt braces.1, initItems, if_pos braces.2, readFormat_eq, if_neg closed]
    exact ih
  | case6 idx i inside percent escape illegal bare ih =>
    have legal : isLegalItem (charAt p (idx + 1)) = true := by simpa using (not_or.mp illegal).2
    have more : idx + 1 < p.length := by omega
    have unopened : (p.drop (idx + 2)).head? ≠ some '\x7b' := by
      intro opened
      by_cases inside : idx + 2 < p.length
      · rw [charAt_of_lt inside] at opened
        exact bare ⟨inside, Option.some.inj opened⟩
      · rw [drop_of_ge (by omega)] at opened
        cases opened
    rw [charAt_of_lt inside, not_not.mp percent, charAt_of_lt more, initItems_percent legal,
      initItems_letter _ _ unopened]
    exact ih
  | case7 idx i outside =>
    rw [drop_of_ge (by omega)]
    rfl

/-! ## Tokens -/

/-- A piece of a pattern: a character other than `%`, the escape `%%`, or an item with or without braces.
Braces hold no closing brace. -/
inductive Token where
  | plain (c : Char) (ne : c ≠ '%')
  | escape
  | bare (letter : Char) (legal : isLegalItem letter = true)
  | braced (letter : Char) (text : List Char) (legal : isLegalItem letter = true) (free : '\x7d' ∉ text)

namespace Token

/-- How a token is written. -/
def chars : Token → List Char
  | plain c _ => [c]
  | escape => ['%', '%']
  | bare letter _ => ['%', letter]
  | braced letter text _ _ => '%' :: letter :: '\x7b' :: (text ++ ['\x7d'])

/-- No opening brace may follow an item without braces. -/
def MayPrecede : Token → List Char → Prop
  | bare _ _, rest => rest.head? ≠ some '\x7b'
  | _, _ => True

end Token

/-- The characters are the tokens, one behind the other. -/
inductive Reads : List Char → List Token → Prop where
  | nil : Reads [] []
  | cons (t : Token) {cs : List Char} {ts : List Token} (may : t.MayPrecede cs) (rest : Reads cs ts) :
    Reads (t.chars ++ cs) (t :: ts)

/-- The pattern is a concatenation of tokens. -/
def IsPattern (pattern : String) : Prop := ∃ ts, Reads pattern.toList ts

/-- Braces end at the first closing brace. -/
theorem braces_inj {text text' cs cs' : List Char} (free : '\x7d' ∉ text) (free' : '\x7d' ∉ text')
    (same : text ++ '\x7d' :: cs = text' ++ '\x7d' :: cs') : text = text' ∧ cs = cs' := by
  induction text generalizing text' with
  | nil =>
    cases text' with
    | nil => exact ⟨rfl, (List.cons.inj same).2⟩
    | cons c text' => exact absurd ((List.cons.inj same).1 ▸ List.mem_cons_self) free'
  | cons c text ih =>
    cases text' with
    | nil => exact absurd ((List.cons.inj same).1 ▸ List.mem_cons_self) free
    | cons c' text' =>
      obtain ⟨rfl, rest⟩ := List.cons.inj same
      obtain ⟨rfl, rfl⟩ := ih (fun mem => free (List.mem_cons_of_mem _ mem))
        (fun mem => free' (List.mem_cons_of_mem _ mem)) rest
      exact ⟨rfl, rfl⟩

/-- A text has one first token. -/
theorem Token.chars_inj {t t' : Token} {cs cs' : List Char} (may : t.MayPrecede cs) (may' : t'.MayPrecede cs')
    (same : t.chars ++ cs = t'.chars ++ cs') : t = t' ∧ cs = cs' := by
  cases t with
  | plain c ne =>
    cases t' with
    | plain c' ne' =>
      obtain ⟨rfl, rest⟩ := List.cons.inj same
      exact ⟨rfl, rest⟩
    | escape => exact absurd (List.cons.inj same).1 ne
    | bare letter legal => exact absurd (List.cons.inj same).1 ne
    | braced letter text legal free => exact absurd (List.cons.inj same).1 ne
  | escape =>
    cases t' with
    | plain c' ne' => exact absurd (List.cons.inj same).1.symm ne'
    | escape => exact ⟨rfl, List.append_cancel_left same⟩
    | bare letter legal =>
      exact absurd (List.cons.inj (List.cons.inj same).2).1.symm (ne_percent_of_legal legal)
    | braced letter text legal free =>
      exact absurd (List.cons.inj (List.cons.inj same).2).1.symm (ne_percent_of_legal legal)
  | bare letter legal =>
    cases t' with
    | plain c' ne' => exact absurd (List.cons.inj same).1.symm ne'
    | escape => exact absurd (List.cons.inj (List.cons.inj same).2).1 (ne_percent_of_legal legal)
    | bare letter' legal' =>
      obtain ⟨rfl, rest⟩ := List.cons.inj (List.cons.inj same).2
      exact ⟨rfl, rest⟩
    | braced letter' text legal' free =>
      have opened := (List.cons.inj (List.cons.inj same).2).2
      exact absurd (congrArg List.head? opened) may
  | braced letter text legal free =>
    cases t' with
    | plain c' ne' => exact absurd (List.cons.inj same).1.symm ne'
    | escape => exact absurd (List.cons.inj (List.cons.inj same).2).1 (ne_percent_of_legal legal)
    | bare letter' legal' =>
      have opened := (List.cons.inj (List.cons.inj same).2).2
      exact absurd (congrArg List.head? opened.symm) may'
    | braced letter' text' legal' free' =>
      obtain ⟨rfl, rest⟩ := List.cons.inj (List.cons.inj same).2
      have texts : text ++ '\x7d' :: cs = text' ++ '\x7d' :: cs' := by
        simpa using (List.cons.inj rest).2
      obtain ⟨rfl, rfl⟩ := braces_inj free free' texts
      exact ⟨rfl, rfl⟩

/-- A pattern has one list of tokens. -/
theorem Reads.unique {cs : List Char} {ts : List Token} (reads : Reads cs ts) :
    ∀ {ts'}, Reads cs ts' → ts' = ts := by
  induction reads with
  | nil =>
    intro ts' other
    generalize none : ([] : List Char) = cs at other
    cases other with
    | nil => rfl
    | cons t' => cases t' <;> cases none
  | cons t may rest ih =>
    intro ts' other
    generalize same : t.chars ++ _ = cs at other
    cases other with
    | nil => cases t <;> cases same
    | cons t' may' rest' =>
      obtain ⟨rfl, rfl⟩ := Token.chars_inj may may' same
      rw [ih rest']

/-! ## What is accepted -/

/-- What `init_items` has behind a token. -/
def Items.take (i : Items) : Token → Items
  | .plain c _ => i.append c
  | .escape => i.append '%'
  | .bare letter _ => i.push letter ""
  | .braced letter text _ _ => i.push letter (String.ofList text)

theorem initItems_braces (x : Char) (i : Items) {text : List Char} (free : '\x7d' ∉ text) (cs : List Char) :
    ∀ format, initItems (.braces x format) i (text ++ '\x7d' :: cs) =
      initItems .text (i.push x (format ++ String.ofList text)) cs := by
  induction text with
  | nil =>
    intro format
    rw [List.nil_append, initItems, if_pos rfl, String.ofList_nil, String.append_empty]
  | cons c text ih =>
    intro format
    have other : c ≠ '\x7d' := fun same => free (same ▸ List.mem_cons_self)
    rw [List.cons_append, initItems, if_neg other, ih fun mem => free (List.mem_cons_of_mem _ mem)]
    congr 2
    apply String.ext
    simp

/-- The machine reads one token. -/
theorem initItems_token (t : Token) {cs : List Char} (may : t.MayPrecede cs) (i : Items) :
    initItems .text i (t.chars ++ cs) = initItems .text (i.take t) cs := by
  cases t with
  | plain c ne =>
    rw [Token.chars, List.singleton_append, initItems, atText, if_neg ne]
    rfl
  | escape => rfl
  | bare letter legal =>
    rw [Token.chars, List.cons_append, List.singleton_append, initItems_percent legal, initItems_letter _ _ may]
    rfl
  | braced letter text legal free =>
    have braces : (Token.braced letter text legal free).chars ++ cs =
        '%' :: letter :: '\x7b' :: (text ++ '\x7d' :: cs) := by simp [Token.chars]
    rw [braces, initItems_percent legal, initItems, if_pos rfl, initItems_braces letter i free, String.empty_append]
    rfl

theorem Reads.initItems {cs : List Char} {ts : List Token} (reads : Reads cs ts) :
    ∀ i, initItems .text i cs = some (ts.foldl Items.take i).flush := by
  induction reads with
  | nil => exact fun i => rfl
  | cons t may rest ih =>
    intro i
    rw [initItems_token t may, ih, List.foldl_cons]

/-- What the machine has read of the token that it is in. -/
def Place.chars : Place → List Char
  | .text => []
  | .percent => ['%']
  | .letter c => ['%', c]
  | .braces c format => '%' :: c :: '\x7b' :: format.toList

/-- The token that the machine is in can still become one. -/
def Place.Open : Place → Prop
  | .text => True
  | .percent => True
  | .letter c => isLegalItem c = true
  | .braces c format => isLegalItem c = true ∧ '\x7d' ∉ format.toList

/-- What the machine accepts is, with what it has read of a token, a list of tokens. -/
theorem reads_of_initItems {items : List FormatterItem} (cs : List Char) : ∀ (place : Place) (i : Items),
    place.Open → initItems place i cs = some items → ∃ ts, Reads (place.chars ++ cs) ts := by
  induction cs with
  | nil =>
    intro place i opened accepted
    cases place with
    | text => exact ⟨[], .nil⟩
    | percent => cases accepted
    | letter c => exact ⟨[.bare c opened], .cons (.bare c opened) (by simp [Token.MayPrecede]) .nil⟩
    | braces c format => cases accepted
  | cons c cs ih =>
    have text : ∀ i, initItems .text i (c :: cs) = some items → ∃ ts, Reads (c :: cs) ts := by
      intro i accepted
      by_cases percent : c = '%'
      · rw [initItems, atText, if_pos percent] at accepted
        rw [percent]
        exact ih .percent i trivial accepted
      · rw [initItems, atText, if_neg percent] at accepted
        obtain ⟨ts, rest⟩ := ih .text _ trivial accepted
        exact ⟨_, .cons (.plain c percent) trivial rest⟩
    intro place i opened accepted
    cases place with
    | text => exact text i accepted
    | percent =>
      rw [initItems] at accepted
      split at accepted
      · rename_i same
        subst same
        obtain ⟨ts, rest⟩ := ih .text _ trivial accepted
        exact ⟨_, .cons .escape trivial rest⟩
      · split at accepted
        · rename_i legal
          exact ih (.letter c) i legal accepted
        · cases accepted
    | letter x =>
      by_cases brace : c = '\x7b'
      · rw [initItems, if_pos brace] at accepted
        rw [brace]
        exact ih (.braces x "") i ⟨opened, List.not_mem_nil⟩ accepted
      · have bare : (c :: cs).head? ≠ some '\x7b' := fun same => brace (Option.some.inj same)
        rw [initItems_letter x i bare] at accepted
        obtain ⟨ts, rest⟩ := text _ accepted
        exact ⟨_, .cons (.bare x opened) bare rest⟩
    | braces x format =>
      rw [initItems] at accepted
      split at accepted
      · rename_i same
        subst same
        obtain ⟨ts, rest⟩ := ih .text _ trivial accepted
        have token := Reads.cons (.braced x format.toList opened.1 opened.2) trivial rest
        exact ⟨_, by simpa [Token.chars, Place.chars] using token⟩
      · rename_i other
        have still : Place.Open (.braces x (format.push c)) := by
          refine ⟨opened.1, ?_⟩
          simp [opened.2, Ne.symm other]
        obtain ⟨ts, rest⟩ := ih _ i still accepted
        exact ⟨ts, by simpa [Place.chars] using rest⟩

/-- The machine accepts the concatenations of tokens. -/
theorem accepts_iff (pattern : String) :
    (∃ items, initItems .text .empty pattern.toList = some items) ↔ IsPattern pattern := by
  constructor
  · rintro ⟨items, accepted⟩
    exact reads_of_initItems _ .text .empty trivial accepted
  · rintro ⟨ts, reads⟩
    exact ⟨_, reads.initItems .empty⟩

/-! ## Runs of text -/

/-- What a token gives: one character of text, or an item. -/
inductive Piece where
  | char (c : Char)
  | item (letter : Char) (format : String)
  deriving DecidableEq, Repr

def Token.piece : Token → Piece
  | plain c _ => .char c
  | escape => .char '%'
  | bare letter _ => .item letter ""
  | braced letter text _ _ => .item letter (if letter = 'd' then String.ofList text else "")

namespace FormatterItem

def pieces : FormatterItem → List Piece
  | string text => text.toList.map .char
  | item letter format => [.item letter format]

def IsText : FormatterItem → Prop
  | string _ => True
  | item _ _ => False

end FormatterItem

/-- Two items in a row are not both text. -/
def Apart (items : List FormatterItem) : Prop := items.IsChain fun x y => ¬ (x.IsText ∧ y.IsText)

/-- The items are the tokens, with every run of text in one item. -/
structure Merges (ts : List Token) (items : List FormatterItem) : Prop where
  pieces : items.flatMap FormatterItem.pieces = ts.map Token.piece
  nonempty : ∀ x ∈ items, x ≠ .string ""
  /-- No run goes on in the next item. -/
  maximal : Apart items

/-- The item of a text, if there is any text. -/
def textItem (text : String) : List FormatterItem := if text.isEmpty then [] else [.string text]

/-- Text in front of items, which goes into the first one if that is text. -/
def prepend (text : String) : List FormatterItem → List FormatterItem
  | [] => textItem text
  | .string more :: items => .string (text ++ more) :: items
  | .item letter format :: items => textItem text ++ .item letter format :: items

def mergePieces : List Piece → List FormatterItem
  | [] => []
  | .char c :: ps => prepend (String.singleton c) (mergePieces ps)
  | .item letter format :: ps => .item letter format :: mergePieces ps

theorem textItem_of_ne {text : String} (some : text ≠ "") : textItem text = [.string text] := by
  rw [textItem, if_neg fun none => some (String.isEmpty_iff.mp none)]

@[simp] theorem prepend_empty (items : List FormatterItem) : prepend "" items = items := by
  match items with
  | [] => rfl
  | .string more :: items => rw [prepend, String.empty_append]
  | .item letter format :: items => rfl

theorem prepend_prepend (text more : String) (items : List FormatterItem) :
    prepend text (prepend more items) = prepend (text ++ more) items := by
  by_cases none : more = ""
  · rw [none, prepend_empty, String.append_empty]
  · have joined : text ++ more ≠ "" := fun eq => none (String.append_eq_empty_iff.mp eq).2
    match items with
    | [] => rw [prepend, textItem_of_ne none, prepend, prepend, textItem_of_ne joined]
    | .string s :: items => rw [prepend, prepend, prepend, String.append_assoc]
    | .item letter format :: items =>
      rw [prepend, textItem_of_ne none, prepend, textItem_of_ne joined]
      rfl

theorem flush_eq (i : Items) : i.flush = i.items ++ textItem i.normalStr := by
  rw [Items.flush, textItem]
  split
  · rw [List.append_nil]
  · rfl

/-- The items are what `init_items` has, and then the merged pieces of the other tokens. -/
theorem flush_foldl_take (ts : List Token) : ∀ i : Items,
    (ts.foldl Items.take i).flush = i.items ++ prepend i.normalStr (mergePieces (ts.map Token.piece)) := by
  have char : ∀ (i : Items) (c : Char) (ps : List Piece),
      prepend (i.append c).normalStr (mergePieces ps) =
        prepend i.normalStr (mergePieces (.char c :: ps)) := by
    intro i c ps
    rw [mergePieces, prepend_prepend]
    rfl
  have item : ∀ (i : Items) (letter : Char) (format : String) (ps : List Piece),
      (i.push letter format).items ++ prepend (i.push letter format).normalStr (mergePieces ps) =
        i.items ++ prepend i.normalStr
          (mergePieces (.item letter (if letter = 'd' then format else "") :: ps)) := by
    intro i letter format ps
    have start : (i.push letter format).normalStr = "" := rfl
    rw [start, prepend_empty, Items.push, flush_eq, mergePieces, prepend, List.append_assoc,
      List.append_assoc]
    rfl
  induction ts with
  | nil =>
    intro i
    exact flush_eq i
  | cons t ts ih =>
    intro i
    rw [List.foldl_cons, ih, List.map_cons]
    cases t with
    | plain c ne => exact congrArg (i.items ++ ·) (char i c _)
    | escape => exact congrArg (i.items ++ ·) (char i '%' _)
    | bare letter legal =>
      have same := item i letter "" (ts.map Token.piece)
      rw [ite_self] at same
      exact same
    | braced letter text legal free => exact item i letter (String.ofList text) _

/-! ## The items of a pattern -/

theorem flatMap_textItem (text : String) :
    (textItem text).flatMap FormatterItem.pieces = text.toList.map .char := by
  by_cases none : text = ""
  · rw [none]
    rfl
  · rw [textItem_of_ne none, List.flatMap_singleton, FormatterItem.pieces]

theorem flatMap_prepend (text : String) (items : List FormatterItem) :
    (prepend text items).flatMap FormatterItem.pieces =
      text.toList.map .char ++ items.flatMap FormatterItem.pieces := by
  match items with
  | [] => rw [prepend, flatMap_textItem, List.flatMap_nil, List.append_nil]
  | .string more :: items =>
    rw [prepend, List.flatMap_cons, List.flatMap_cons, FormatterItem.pieces, FormatterItem.pieces,
      String.toList_append, List.map_append, List.append_assoc]
  | .item letter format :: items => rw [prepend, List.flatMap_append, flatMap_textItem]

theorem flatMap_mergePieces (ps : List Piece) : (mergePieces ps).flatMap FormatterItem.pieces = ps := by
  induction ps with
  | nil => rfl
  | cons p ps ih =>
    cases p with
    | char c =>
      rw [mergePieces, flatMap_prepend, ih]
      simp
    | item letter format =>
      rw [mergePieces, List.flatMap_cons, ih]
      rfl

theorem mem_textItem {text : String} {x : FormatterItem} (mem : x ∈ textItem text) :
    x = .string text ∧ text ≠ "" := by
  by_cases none : text = ""
  · rw [none] at mem
    cases mem
  · rw [textItem_of_ne none] at mem
    exact ⟨List.mem_singleton.mp mem, none⟩

theorem ne_empty_of_mem_prepend (text : String) {items : List FormatterItem}
    (nonempty : ∀ x ∈ items, x ≠ .string "") : ∀ x ∈ prepend text items, x ≠ .string "" := by
  have first : ∀ x ∈ textItem text, x ≠ .string "" := by
    rintro x mem rfl
    obtain ⟨same, some⟩ := mem_textItem mem
    exact some (FormatterItem.string.inj same).symm
  match items with
  | [] => exact first
  | .string more :: items =>
    intro x mem
    rcases List.mem_cons.mp mem with rfl | mem
    · intro same
      have none := FormatterItem.string.inj same
      exact nonempty _ List.mem_cons_self (congrArg _ (String.append_eq_empty_iff.mp none).2)
    · exact nonempty x (List.mem_cons_of_mem _ mem)
  | .item letter format :: items =>
    intro x mem
    rcases List.mem_append.mp mem with mem | mem
    · exact first x mem
    · exact nonempty x mem

theorem ne_empty_of_mem_mergePieces (ps : List Piece) : ∀ x ∈ mergePieces ps, x ≠ .string "" := by
  induction ps with
  | nil => simp [mergePieces]
  | cons p ps ih =>
    cases p with
    | char c => exact ne_empty_of_mem_prepend _ ih
    | item letter format =>
      intro x mem
      rcases List.mem_cons.mp mem with rfl | mem
      · simp
      · exact ih x mem
theorem Apart.item {items : List FormatterItem} (apart : Apart items) (letter : Char) (format : String) :
    Apart (.item letter format :: items) :=
  List.isChain_cons.mpr ⟨fun _ _ both => both.1, apart⟩

theorem Apart.prepend {items : List FormatterItem} (apart : Apart items) (text : String) :
    Apart (prepend text items) := by
  by_cases none : text = ""
  · rw [none, prepend_empty]
    exact apart
  · match items with
    | [] =>
      rw [Log.prepend, textItem_of_ne none]
      exact List.isChain_singleton _
    | .string more :: items => exact List.isChain_cons.mpr (List.isChain_cons.mp apart)
    | .item letter format :: items =>
      rw [Log.prepend, textItem_of_ne none]
      exact List.isChain_cons_cons.mpr ⟨fun both => both.2, apart⟩

theorem apart_mergePieces (ps : List Piece) : Apart (mergePieces ps) := by
  induction ps with
  | nil => exact List.isChain_nil
  | cons p ps ih =>
    cases p with
    | char c => exact ih.prepend _
    | item letter format => exact ih.item letter format

theorem mergePieces_text (cs : List Char) (ps : List Piece) :
    mergePieces (cs.map .char ++ ps) = prepend (String.ofList cs) (mergePieces ps) := by
  induction cs with
  | nil => exact (prepend_empty _).symm
  | cons c cs ih =>
    rw [List.map_cons, List.cons_append, mergePieces, ih, prepend_prepend]
    congr 1
    apply String.ext
    simp

/-- Items with merged runs are what their pieces merge to. -/
theorem mergePieces_flatMap (items : List FormatterItem) (nonempty : ∀ x ∈ items, x ≠ .string "")
    (apart : Apart items) : mergePieces (items.flatMap FormatterItem.pieces) = items := by
  induction items with
  | nil => rfl
  | cons x items ih =>
    obtain ⟨first, rest⟩ := List.isChain_cons.mp apart
    rw [List.flatMap_cons]
    cases x with
    | string text =>
      have some : text ≠ "" := fun none => nonempty _ List.mem_cons_self (congrArg _ none)
      rw [FormatterItem.pieces, mergePieces_text, ih (fun x mem => nonempty x (List.mem_cons_of_mem _ mem)) rest,
        String.ofList_toList]
      match items with
      | [] => exact textItem_of_ne some
      | .string more :: items => exact absurd ⟨trivial, trivial⟩ (first (.string more) rfl)
      | .item letter format :: items =>
        rw [prepend, textItem_of_ne some]
        rfl
    | item letter format =>
      rw [FormatterItem.pieces, List.singleton_append, mergePieces,
        ih (fun x mem => nonempty x (List.mem_cons_of_mem _ mem)) rest]

/-- Tokens merge to one list of items. -/
theorem merges_iff (ts : List Token) (items : List FormatterItem) :
    Merges ts items ↔ items = mergePieces (ts.map Token.piece) := by
  constructor
  · intro merges
    rw [← merges.pieces]
    exact (mergePieces_flatMap items merges.nonempty merges.maximal).symm
  · rintro rfl
    exact ⟨flatMap_mergePieces _, ne_empty_of_mem_mergePieces _, apart_mergePieces _⟩

/-! ## Printing -/

/-- What a `LogEvent` holds. The thread is given by the text that a stream prints for it. -/
structure LogEvent where
  fileName : String
  line : Int32
  elapse : UInt32
  fiberId : UInt32
  threadId : String
  time : UInt64
  threadName : String
  content : String

section Printing

-- `strftime` makes a text of a format and of the local time at a time of the epoch, however long it gets.
variable (strftime : String → UInt64 → String) (logger : String) (level : LogLevel) (event : LogEvent)

/-- The format that a `DateTimeFormatterItem` works with. -/
def dateFormat (format : String) : String := if format.isEmpty then "%Y-%m-%d %H:%M:%S" else format

/-- The value of the item of a letter. -/
def itemValue (letter : Char) (format : String) : String :=
  match letter with
  | 'm' => event.content
  | 'p' => level.toText
  | 'r' => toString event.elapse
  | 'c' => logger
  | 't' => event.threadId
  | 'F' => toString event.fiberId
  | 'f' => event.fileName
  | 'N' => event.threadName
  | 'd' => strftime (dateFormat format) event.time
  | 'l' => toString event.line
  | 'n' => "\n"
  | 'T' => "\t"
  | _ => ""

/-- The `char buf[64]` of a date item has room for its text and the zero behind it. A character stands for
a byte. -/
def DateFits (letter : Char) (format : String) : Prop :=
  letter = 'd' → (strftime (dateFormat format) event.time).length < 64

instance (letter : Char) (format : String) : Decidable (DateFits strftime event letter format) :=
  inferInstanceAs (Decidable (_ → _))

/-- What the item of a letter writes. Where a date does not fit, `strftime` says so and leaves the buffer
indeterminate; the item prints the buffer all the same, and there is no telling what. -/
def itemText (letter : Char) (format : String) : Option String :=
  if DateFits strftime event letter format then some (itemValue strftime logger level event letter format)
  else none

/-- The `format` of an item: what it writes. -/
def FormatterItem.format : FormatterItem → Option String
  | string text => some text
  | item letter format => itemText strftime logger level event letter format

/-- `LogFormatter::format`, onto a stream with what it has already. -/
def LogFormatter.format (f : LogFormatter) (os : String) : Option String :=
  f.items.foldlM (fun os item => (item.format strftime logger level event).map (os ++ ·)) os

namespace Token

/-- The literal text of a token, or the value of its item. -/
def value : Token → String
  | plain c _ => String.singleton c
  | escape => "%"
  | bare letter _ => itemValue strftime logger level event letter ""
  | braced letter text _ _ => itemValue strftime logger level event letter (String.ofList text)

/-- A token that is a date item has room for its text. -/
def Fits : Token → Prop
  | plain _ _ => True
  | escape => True
  | bare letter _ => DateFits strftime event letter ""
  | braced letter text _ _ => DateFits strftime event letter (String.ofList text)

end Token

namespace Piece

def value : Piece → String
  | char c => String.singleton c
  | item letter format => itemValue strftime logger level event letter format

def text : Piece → Option String
  | char c => some (String.singleton c)
  | item letter format => itemText strftime logger level event letter format

def Fits : Piece → Prop
  | char _ => True
  | item letter format => DateFits strftime event letter format

end Piece

/-- Only the letter `d` uses the format. -/
theorem itemValue_format (letter : Char) (format : String) :
    itemValue strftime logger level event letter (if letter = 'd' then format else "") =
      itemValue strftime logger level event letter format := by
  by_cases date : letter = 'd'
  · rw [if_pos date]
  · rw [if_neg date]
    unfold itemValue
    split <;> first | rfl | contradiction

theorem dateFits_format (letter : Char) (format : String) :
    DateFits strftime event letter (if letter = 'd' then format else "") ↔
      DateFits strftime event letter format := by
  by_cases date : letter = 'd'
  · rw [if_pos date]
  · exact iff_of_true (fun same => absurd same date) fun same => absurd same date

theorem Token.piece_value (t : Token) :
    t.piece.value strftime logger level event = t.value strftime logger level event := by
  cases t with
  | plain c ne => rfl
  | escape => rfl
  | bare letter legal => rfl
  | braced letter text legal free => exact itemValue_format strftime logger level event letter _

theorem Token.piece_fits (t : Token) : t.piece.Fits strftime event ↔ t.Fits strftime event := by
  cases t with
  | plain c ne => exact Iff.rfl
  | escape => exact Iff.rfl
  | bare letter legal => exact Iff.rfl
  | braced letter text legal free => exact dateFits_format strftime event letter _

/-- Pieces that are printed one behind the other: all of their values, or nothing that can be told. -/
theorem foldlM_pieces (ps : List Piece) : ∀ os : String,
    ((∀ p ∈ ps, p.Fits strftime event) →
      ps.foldlM (fun os p => (p.text strftime logger level event).map (os ++ ·)) os =
        some (os ++ String.join (ps.map (Piece.value strftime logger level event)))) ∧
    (¬ (∀ p ∈ ps, p.Fits strftime event) →
      ps.foldlM (fun os p => (p.text strftime logger level event).map (os ++ ·)) os = none) := by
  induction ps with
  | nil =>
    intro os
    refine ⟨fun _ => ?_, fun short => absurd (fun p mem => absurd mem List.not_mem_nil) short⟩
    exact congrArg some (String.append_empty).symm
  | cons p ps ih =>
    intro os
    rw [List.foldlM_cons, List.forall_mem_cons]
    by_cases fits : p.Fits strftime event
    · have written : p.text strftime logger level event = some (p.value strftime logger level event) := by
        cases p with
        | char c => rfl
        | item letter format => exact if_pos fits
      rw [written, Option.map_some, Option.bind_eq_bind, Option.bind_some, List.map_cons, String.join_cons,
        ← String.append_assoc]
      obtain ⟨whole, broken⟩ := ih (os ++ p.value strftime logger level event)
      exact ⟨fun all => whole all.2, fun short => broken fun all => short ⟨fits, all⟩⟩
    · have lost : p.text strftime logger level event = none := by
        cases p with
        | char c => exact absurd trivial fits
        | item letter format => exact if_neg fits
      rw [lost]
      exact ⟨fun all => absurd all.1 fits, fun _ => rfl⟩

/-- An item prints its pieces. -/
theorem FormatterItem.foldlM_pieces (x : FormatterItem) (os : String) :
    x.pieces.foldlM (fun os p => (p.text strftime logger level event).map (os ++ ·)) os =
      (x.format strftime logger level event).map (os ++ ·) := by
  cases x with
  | item letter format => exact bind_pure _
  | string text =>
    have fits : ∀ p ∈ (string text).pieces, p.Fits strftime event := by
      intro p mem
      obtain ⟨c, -, rfl⟩ := List.mem_map.mp mem
      trivial
    have chars : Piece.value strftime logger level event ∘ Piece.char = String.singleton := rfl
    have join : String.join (text.toList.map String.singleton) = text := by
      apply String.ext
      rw [String.toList_join, List.flatMap_map]
      simp
    rw [(Log.foldlM_pieces strftime logger level event _ os).1 fits, pieces, List.map_map, chars, join]
    rfl

/-- A formatter prints its pieces in order. -/
theorem LogFormatter.format_eq (items : List FormatterItem) : ∀ os : String,
    items.foldlM (fun os item => (item.format strftime logger level event).map (os ++ ·)) os =
      (items.flatMap FormatterItem.pieces).foldlM
        (fun os p => (p.text strftime logger level event).map (os ++ ·)) os := by
  induction items with
  | nil => exact fun os => rfl
  | cons x items ih =>
    intro os
    rw [List.foldlM_cons, List.flatMap_cons, List.foldlM_append, FormatterItem.foldlM_pieces]
    exact congrArg _ (funext ih)

end Printing

/-! ## The formatter of a pattern -/

/-- The constructor of `LogFormatter`. On an illegal pattern `init_items` clears the items, and the
constructor clears the pattern. -/
def LogFormatter.construct (pattern : String) : LogFormatter :=
  match scan (effectivePattern pattern).toList 0 .empty with
  | some items => ⟨true, effectivePattern pattern, items⟩
  | none => ⟨false, "", []⟩

theorem LogFormatter.construct_eq (pattern : String) : construct pattern = create pattern := by
  have read : scan (effectivePattern pattern).toList 0 .empty =
      initItems .text .empty (effectivePattern pattern).toList := by rw [scan_eq, List.drop_zero]
  rw [construct, read]
  rfl

theorem effectivePattern_of_ne {pattern : String} (nonempty : pattern ≠ "") : effectivePattern pattern = pattern := by
  rw [effectivePattern, if_neg fun none => nonempty (String.isEmpty_iff.mp none)]

/-- A formatter accepts the concatenations of tokens. Its items are the tokens with merged runs of text,
and it prints the values of the tokens. Any other pattern leaves it empty, and an appender then keeps the
formatter it has. -/
structure PatternExact (strftime : String → UInt64 → String) (logger : String) (level : LogLevel)
    (event : LogEvent) (pattern : String) : Prop where
  legal_iff : (LogFormatter.construct pattern).legalPattern = true ↔ IsPattern pattern
  unique : ∀ ts ts', Reads pattern.toList ts → Reads pattern.toList ts' → ts' = ts
  legal : ∀ ts, Reads pattern.toList ts →
    (LogFormatter.construct pattern).pattern = pattern ∧
    (∀ items, Merges ts items ↔ items = (LogFormatter.construct pattern).items) ∧
    ∀ os, (LogFormatter.construct pattern).format strftime logger level event os =
      some (os ++ String.join (ts.map (Token.value strftime logger level event)))
  illegal : ¬ IsPattern pattern →
    (LogFormatter.construct pattern).items = [] ∧ (LogFormatter.construct pattern).pattern = "" ∧
    ∀ appender : LogAppender, appender.setFormatter pattern = appender

theorem create_reads {pattern : String} (nonempty : pattern ≠ "") {ts : List Token} (reads : Reads pattern.toList ts) :
    LogFormatter.create pattern = ⟨true, pattern, mergePieces (ts.map Token.piece)⟩ := by
  rw [LogFormatter.create, effectivePattern_of_ne nonempty, reads.initItems, flush_foldl_take]
  simp [Items.empty]

theorem create_illegal {pattern : String} (nonempty : pattern ≠ "") (illegal : ¬ IsPattern pattern) :
    LogFormatter.create pattern = ⟨false, "", []⟩ := by
  have rejected : initItems .text .empty pattern.toList = none := by
    by_contra accepted
    obtain ⟨items, eq⟩ := Option.ne_none_iff_exists'.mp accepted
    exact illegal ((accepts_iff pattern).mp ⟨items, eq⟩)
  rw [LogFormatter.create, effectivePattern_of_ne nonempty, rejected]

section Exact

variable (strftime : String → UInt64 → String) (logger : String) (level : LogLevel) (event : LogEvent)
  {pattern : String}

/-- A formatter prints the values of its tokens, or, where a date does not fit, what cannot be told. -/
theorem format_reads (nonempty : pattern ≠ "") {ts : List Token} (reads : Reads pattern.toList ts) (os : String) :
    (LogFormatter.create pattern).format strftime logger level event os =
        some (os ++ String.join (ts.map (Token.value strftime logger level event))) ↔
      ∀ t ∈ ts, t.Fits strftime event := by
  have values : Piece.value strftime logger level event ∘ Token.piece = Token.value strftime logger level event :=
    funext (Token.piece_value strftime logger level event)
  have fits : (∀ p ∈ ts.map Token.piece, p.Fits strftime event) ↔ ∀ t ∈ ts, t.Fits strftime event := by
    rw [List.forall_mem_map]
    exact forall₂_congr fun t _ => t.piece_fits strftime event
  obtain ⟨whole, broken⟩ := foldlM_pieces strftime logger level event (ts.map Token.piece) os
  rw [create_reads nonempty reads, LogFormatter.format, LogFormatter.format_eq, flatMap_mergePieces, ← fits]
  constructor
  · intro printed
    by_contra short
    rw [broken short] at printed
    cases printed
  · intro all
    rw [whole all, List.map_map, values]

/-- Everything that is asked of a formatter holds of every pattern that is not empty, but for its dates: they
are printed exactly where the text of each, for the time of the event, has at most 63 bytes. -/
theorem patternExact_iff (nonempty : pattern ≠ "") :
    PatternExact strftime logger level event pattern ↔
      ∀ ts, Reads pattern.toList ts → ∀ t ∈ ts, t.Fits strftime event := by
  constructor
  · intro exact ts reads
    have printed := (exact.legal ts reads).2.2 ""
    rw [LogFormatter.construct_eq] at printed
    exact (format_reads strftime logger level event nonempty reads "").mp printed
  · intro fits
    refine ⟨?_, fun _ _ reads other => reads.unique other, ?_, ?_⟩
    · rw [LogFormatter.construct_eq]
      by_cases legal : IsPattern pattern
      · obtain ⟨ts, reads⟩ := legal
        rw [create_reads nonempty reads]
        exact iff_of_true rfl ⟨ts, reads⟩
      · rw [create_illegal nonempty legal]
        exact iff_of_false Bool.false_ne_true legal
    · intro ts reads
      rw [LogFormatter.construct_eq]
      have printed := format_reads strftime logger level event nonempty reads
      refine ⟨?_, ?_, fun os => (printed os).mpr (fits ts reads)⟩
      · rw [create_reads nonempty reads]
      · rw [create_reads nonempty reads]
        exact merges_iff ts
    · intro illegal
      rw [LogFormatter.construct_eq, create_illegal nonempty illegal]
      refine ⟨rfl, rfl, fun appender => ?_⟩
      rw [LogAppender.setFormatter, create_illegal nonempty illegal]
      rfl

end Exact

/-- `strftime` on a format without a percent sign: the format itself. -/
def plainTime (format : String) (_ : UInt64) : String := format

/-- An event at time 0 with a message. -/
def message (content : String) : LogEvent := ⟨"main.cpp", 1, 0, 0, "1", 0, "main", content⟩

/-- A date of four bytes. -/
theorem patternExact_iff_year : PatternExact plainTime "root" .info (message "up") "%d\x7b2024\x7d" := by
  refine (patternExact_iff plainTime "root" .info (message "up") (by decide)).mpr ?_
  intro ts reads t mem
  let year : Token := .braced 'd' "2024".toList rfl (by decide)
  have token : Reads "%d\x7b2024\x7d".toList [year] := .cons year trivial .nil
  rw [token.unique reads, List.mem_singleton] at mem
  rw [mem]
  intro date
  decide

/-- A date of 64 bytes: the buffer has no room for the zero. -/
theorem not_patternExact_long : ¬ ∀ strftime logger level event pattern, pattern ≠ "" →
    PatternExact strftime logger level event pattern := by
  intro all
  let dashes := List.replicate 64 '-'
  let t : Token := .braced 'd' dashes rfl (by decide)
  have reads : Reads (String.ofList t.chars).toList [t] := by
    rw [String.toList_ofList]
    exact List.append_nil t.chars ▸ .cons t trivial .nil
  have nonempty : String.ofList t.chars ≠ "" := by decide
  have printed := ((all plainTime "root" .info (message "up") _ nonempty).legal [t] reads).2.2 ""
  rw [LogFormatter.construct_eq] at printed
  have fits := (format_reads plainTime "root" .info (message "up") nonempty reads "").mp printed t
    List.mem_cons_self
  exact absurd (fits rfl) (by decide)

end Sylar.Log
