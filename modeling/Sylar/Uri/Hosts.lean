import Sylar.Uri.Create

/-!
# Which hosts are accepted

`uri.rl` differs from RFC 3986 in the rule for hosts. An octet from 200 to 249 is written there with the byte 2 in
place of the digit, the groups before `::` are none or as many as there can be, and `IPvFuture` begins with a small
`v` only. Here every host is read in a grammar that has both ways to write an octet. Its addresses are brought to one
form, `address`, where the numbers of groups are explicit, and what each of the two grammars makes of them is told from
the text: how many groups there are, and how the octets are written.
-/

namespace Sylar.Uri

open Lib Lib.Ragel Http
open UriParser (Rule)
open Rfc3986 (Free colon opening closing)

/-! ## Addresses -/

def dot : UInt8 := 0x2E

/-- `n( h16 ":" )`. -/
def groupsColon (n : Nat) : Language UInt8 := lang false Rfc3986.h16Colon ^ n

/-- As many groups, with colons between them. -/
def groups : Nat → Language UInt8
  | 0 => 1
  | n + 1 => groupsColon n * lang false Rfc3986.h16

/-- Four octets, with dots between them. -/
def dotted (octet : Language UInt8) : Language UInt8 :=
  {w | ∃ a ∈ octet, ∃ b ∈ octet, ∃ c ∈ octet, ∃ d ∈ octet, w = a ++ dot :: (b ++ dot :: (c ++ dot :: d))}

/-- The end of an address, as long as so many groups. -/
def tail (octet : Language UInt8) (n : Nat) : Language UInt8 :=
  {w | w ∈ groups n ∨ ∃ j, n = j + 2 ∧ ∃ p ∈ groupsColon j, ∃ q ∈ dotted octet, w = p ++ q}

/-- An address, with so many groups before and behind `::` as are allowed together. -/
def address (octet : Language UInt8) (allowed : Nat → Nat → Prop) : Language UInt8 :=
  {w | w ∈ tail octet 8 ∨
    ∃ k n, n ≤ 7 ∧ allowed k n ∧ ∃ l ∈ groups k, ∃ r ∈ tail octet n, w = l ++ colon :: colon :: r}

section Address

variable {octet : Rule} {w : Str} {n : Nat}

theorem mem_dotted : w ∈ lang false (Rfc3986.ipv4address octet) ↔ w ∈ dotted (lang false octet) := by
  simp only [Rfc3986.ipv4address, cat, mem_lang_seq, mem_lang_lit]
  constructor
  · rintro ⟨a, inA, _, ⟨_, rfl, _, ⟨b, inB, _, ⟨_, rfl, _, ⟨c, inC, _, ⟨_, rfl, d, inD, rfl⟩, rfl⟩, rfl⟩, rfl⟩, rfl⟩, rfl⟩
    exact ⟨a, inA, b, inB, c, inC, d, inD, rfl⟩
  · rintro ⟨a, inA, b, inB, c, inC, d, inD, rfl⟩
    exact ⟨a, inA, _, ⟨_, rfl, _, ⟨b, inB, _, ⟨_, rfl, _, ⟨c, inC, _, ⟨_, rfl, d, inD, rfl⟩, rfl⟩, rfl⟩, rfl⟩, rfl⟩, rfl⟩

/-- The rule for the end of an address. -/
def tailRule (octet : Rule) : Nat → Rule
  | 0 => eps
  | 1 => Rfc3986.h16
  | n + 2 => seq (times n Rfc3986.h16Colon) (Rfc3986.ls32 octet)

theorem mem_groups_succ : w ∈ groups (n + 1) ↔ ∃ p ∈ groupsColon n, ∃ g ∈ lang false Rfc3986.h16, w = p ++ g := by
  rw [groups, Language.mem_mul]
  simp only [eq_comm]

theorem mem_tailRule : w ∈ lang false (tailRule octet n) ↔ w ∈ tail (lang false octet) n := by
  have noFour : ∀ {m : Nat}, m < 2 → (w ∈ groups m ↔ w ∈ tail (lang false octet) m) := by
    intro m lt
    refine ⟨.inl, ?_⟩
    rintro (inside | ⟨j, rfl, -⟩)
    · exact inside
    · omega
  rcases n with _ | _ | n
  · rw [← noFour (by decide), tailRule, lang_eps]
    rfl
  · rw [← noFour (by decide), tailRule, mem_groups_succ, groupsColon, pow_zero]
    simp
  · rw [tailRule, mem_lang_seq, lang_times, ← groupsColon]
    simp only [Rfc3986.ls32, mem_lang_alt, mem_dotted, cat, mem_lang_seq, mem_lang_lit]
    constructor
    · rintro ⟨p, inP, _, ⟨g, inG, _, ⟨_, rfl, g', inG', rfl⟩, rfl⟩ | inQ, rfl⟩
      · refine .inl (mem_groups_succ.mpr ⟨p ++ (g ++ [colon]), ?_, g', inG', by simp; rfl⟩)
        rw [groupsColon, pow_succ]
        exact Language.append_mem_mul inP (mem_lang_seq.mpr ⟨g, inG, [colon], (mem_lang_lit ":").mpr rfl, rfl⟩)
      · exact .inr ⟨n, rfl, p, inP, _, inQ, rfl⟩
    · rintro (inside | ⟨j, eq, p, inP, q, inQ, rfl⟩)
      · obtain ⟨_, inP, g', inG', rfl⟩ := mem_groups_succ.mp inside
        rw [groupsColon, pow_succ, Language.mem_mul] at inP
        obtain ⟨p, inP, _, inGroup, rfl⟩ := inP
        obtain ⟨g, inG, _, inC, rfl⟩ := mem_lang_seq.mp inGroup
        obtain rfl := (mem_lang_lit ":").mp inC
        exact ⟨p, inP, _, .inl ⟨g, inG, _, ⟨_, rfl, g', inG', rfl⟩, rfl⟩, by simp⟩
      · obtain rfl : n = j := by omega
        exact ⟨p, inP, q, .inr inQ, rfl⟩

/-! ## The two rules for addresses -/

/-- The rule for addresses over one for the groups before `::`. -/
def addressRule (elided : Nat → Rule) (octet : Rule) : Rule :=
  oneOf [seq (times 6 Rfc3986.h16Colon) (Rfc3986.ls32 octet),
    cat [lit "::", times 5 Rfc3986.h16Colon, Rfc3986.ls32 octet],
    cat [opt Rfc3986.h16, lit "::", times 4 Rfc3986.h16Colon, Rfc3986.ls32 octet],
    cat [elided 1, times 3 Rfc3986.h16Colon, Rfc3986.ls32 octet],
    cat [elided 2, times 2 Rfc3986.h16Colon, Rfc3986.ls32 octet],
    cat [elided 3, times 1 Rfc3986.h16Colon, Rfc3986.ls32 octet], seq (elided 4) (Rfc3986.ls32 octet),
    seq (elided 5) Rfc3986.h16, elided 6]

/-- What is before the last groups, where so many more are left. -/
def beforeRule (elided : Nat → Rule) : Nat → Rule
  | 0 => lit "::"
  | 1 => seq (opt Rfc3986.h16) (lit "::")
  | n + 2 => elided (n + 1)

theorem mem_addressRule (elided : Nat → Rule) : w ∈ lang false (addressRule elided octet) ↔
    w ∈ lang false (tailRule octet 8) ∨ ∃ n ≤ 7, w ∈ lang false (seq (beforeRule elided (7 - n)) (tailRule octet n)) := by
  have withoutTail : lang false (seq (elided 6) eps) = lang false (elided 6) := by
    rw [lang_seq, lang_eps, mul_one]
  have withoutGroups : lang false (seq (elided 4) (seq (times 0 Rfc3986.h16Colon) (Rfc3986.ls32 octet))) =
      lang false (seq (elided 4) (Rfc3986.ls32 octet)) := by
    rw [lang_seq, lang_seq, lang_times, pow_zero, one_mul, ← lang_seq]
  have together : ∀ r : Rule, lang false (seq (seq (opt Rfc3986.h16) (lit "::")) r) =
      lang false (seq (opt Rfc3986.h16) (seq (lit "::") r)) := by
    intro r
    simp only [lang_seq, mul_assoc]
  simp only [addressRule, oneOf, cat, mem_lang_alt]
  constructor
  · rintro (all | h | h | h | h | h | h | h | h)
    · exact .inl all
    · exact .inr ⟨7, Nat.le_refl 7, h⟩
    · exact .inr ⟨6, by decide, (together _).symm ▸ h⟩
    · exact .inr ⟨5, by decide, h⟩
    · exact .inr ⟨4, by decide, h⟩
    · exact .inr ⟨3, by decide, h⟩
    · exact .inr ⟨2, by decide, withoutGroups.symm ▸ h⟩
    · exact .inr ⟨1, by decide, h⟩
    · exact .inr ⟨0, by decide, withoutTail.symm ▸ h⟩
  · rintro (all | ⟨n, le, h⟩)
    · exact .inl all
    · interval_cases n
      · exact .inr (.inr (.inr (.inr (.inr (.inr (.inr (.inr (withoutTail ▸ h))))))))
      · exact .inr (.inr (.inr (.inr (.inr (.inr (.inr (.inl h)))))))
      · exact .inr (.inr (.inr (.inr (.inr (.inr (.inl (withoutGroups ▸ h)))))))
      · exact .inr (.inr (.inr (.inr (.inr (.inl h)))))
      · exact .inr (.inr (.inr (.inr (.inl h))))
      · exact .inr (.inr (.inr (.inl h)))
      · exact .inr (.inr (.inl (together _ ▸ h)))
      · exact .inr (.inl h)

/-- An address, by how many groups each rule has before `::`. -/
theorem mem_address {elided : Nat → Rule} {allowed : Nat → Nat → Prop}
    (before : ∀ m ≤ 7, ∀ v, v ∈ lang false (beforeRule elided m) ↔
      ∃ k, allowed k (7 - m) ∧ ∃ l ∈ groups k, v = l ++ [colon, colon]) :
    w ∈ lang false (addressRule elided octet) ↔ w ∈ address (lang false octet) allowed := by
  rw [mem_addressRule, mem_tailRule]
  refine or_congr Iff.rfl ?_
  constructor
  · rintro ⟨n, le, inside⟩
    obtain ⟨v, inV, r, inR, rfl⟩ := mem_lang_seq.mp inside
    obtain ⟨k, ok, l, inL, rfl⟩ := (before (7 - n) (Nat.sub_le 7 n) v).mp inV
    rw [Nat.sub_sub_self le] at ok
    exact ⟨k, n, le, ok, l, inL, r, mem_tailRule.mp inR, by simp⟩
  · rintro ⟨k, n, le, ok, l, inL, r, inR, rfl⟩
    refine ⟨n, le, mem_lang_seq.mpr ⟨l ++ [colon, colon], ?_, r, mem_tailRule.mpr inR, by simp⟩⟩
    refine (before (7 - n) (Nat.sub_le 7 n) _).mpr ⟨k, ?_, l, inL, rfl⟩
    rw [Nat.sub_sub_self le]
    exact ok

theorem mem_before (r : Rule) {w : Str} : w ∈ lang false (seq (opt r) (lit "::")) ↔
    ∃ l, (l = [] ∨ l ∈ lang false r) ∧ w = l ++ [colon, colon] := by
  rw [mem_lang_seq]
  simp only [mem_lang_opt, mem_lang_lit]
  constructor
  · rintro ⟨l, inL, _, rfl, rfl⟩
    exact ⟨l, inL, rfl⟩
  · rintro ⟨l, inL, rfl⟩
    exact ⟨l, inL, _, rfl, rfl⟩

theorem mem_groups_zero : w ∈ groups 0 ↔ w = [] := Iff.rfl

theorem mem_groups_one : w ∈ groups 1 ↔ w ∈ lang false Rfc3986.h16 := by
  rw [mem_groups_succ, groupsColon, pow_zero]
  simp

/-- The groups before `::` in the RFC: up to as many as are left. -/
theorem before_rfc : ∀ m ≤ 7, ∀ v, v ∈ lang false (beforeRule Rfc3986.elided m) ↔
    ∃ k, k + (7 - m) ≤ 7 ∧ ∃ l ∈ groups k, v = l ++ [colon, colon] := by
  intro m le v
  rcases m with _ | _ | m
  · rw [beforeRule, mem_lang_lit]
    constructor
    · rintro rfl
      exact ⟨0, by omega, [], rfl, rfl⟩
    · rintro ⟨k, small, l, inL, rfl⟩
      obtain rfl : k = 0 := by omega
      obtain rfl := mem_groups_zero.mp inL
      rfl
  · rw [beforeRule, mem_before]
    constructor
    · rintro ⟨l, rfl | inL, rfl⟩
      · exact ⟨0, by omega, [], rfl, rfl⟩
      · exact ⟨1, by omega, l, mem_groups_one.mpr inL, rfl⟩
    · rintro ⟨k, small, l, inL, rfl⟩
      rcases (by omega : k = 0 ∨ k = 1) with rfl | rfl
      · exact ⟨l, .inl (mem_groups_zero.mp inL), rfl⟩
      · exact ⟨l, .inr (mem_groups_one.mp inL), rfl⟩
  · rw [beforeRule, Rfc3986.elided, mem_before]
    simp only [mem_lang_seq, mem_lang_atMost]
    constructor
    · rintro ⟨l, rfl | ⟨p, ⟨k, small, inP⟩, g, inG, rfl⟩, rfl⟩
      · exact ⟨0, by omega, [], rfl, rfl⟩
      · exact ⟨k + 1, by omega, p ++ g, mem_groups_succ.mpr ⟨p, inP, g, inG, rfl⟩, rfl⟩
    · rintro ⟨k, small, l, inL, rfl⟩
      rcases k with _ | k
      · exact ⟨l, .inl (mem_groups_zero.mp inL), rfl⟩
      · obtain ⟨p, inP, g, inG, rfl⟩ := mem_groups_succ.mp inL
        exact ⟨p ++ g, .inr ⟨p, ⟨k, by omega, inP⟩, g, inG, rfl⟩, rfl⟩

/-- The groups before `::` in `uri.rl`: none, or as many as are left. -/
theorem before_code : ∀ m ≤ 7, ∀ v, v ∈ lang false (beforeRule UriParser.elided m) ↔
    ∃ k, (k = 0 ∨ k + (7 - m) = 7) ∧ ∃ l ∈ groups k, v = l ++ [colon, colon] := by
  intro m le v
  rcases m with _ | _ | m
  · rw [beforeRule, mem_lang_lit]
    constructor
    · rintro rfl
      exact ⟨0, .inl rfl, [], rfl, rfl⟩
    · rintro ⟨k, exact, l, inL, rfl⟩
      obtain rfl : k = 0 := by omega
      obtain rfl := mem_groups_zero.mp inL
      rfl
  · rw [beforeRule, mem_before]
    constructor
    · rintro ⟨l, rfl | inL, rfl⟩
      · exact ⟨0, .inl rfl, [], rfl, rfl⟩
      · exact ⟨1, by omega, l, mem_groups_one.mpr inL, rfl⟩
    · rintro ⟨k, exact, l, inL, rfl⟩
      rcases (by omega : k = 0 ∨ k = 1) with rfl | rfl
      · exact ⟨l, .inl (mem_groups_zero.mp inL), rfl⟩
      · exact ⟨l, .inr (mem_groups_one.mp inL), rfl⟩
  · rw [beforeRule, UriParser.elided, mem_before]
    simp only [mem_lang_seq, lang_times]
    constructor
    · rintro ⟨l, rfl | ⟨p, inP, g, inG, rfl⟩, rfl⟩
      · exact ⟨0, .inl rfl, [], rfl, rfl⟩
      · exact ⟨m + 2, by omega, p ++ g, mem_groups_succ.mpr ⟨p, inP, g, inG, rfl⟩, rfl⟩
    · rintro ⟨k, exact, l, inL, rfl⟩
      rcases (by omega : k = 0 ∨ k = m + 2) with rfl | rfl
      · exact ⟨l, .inl (mem_groups_zero.mp inL), rfl⟩
      · obtain ⟨p, inP, g, inG, rfl⟩ := mem_groups_succ.mp inL
        exact ⟨p ++ g, .inr ⟨p, inP, g, inG, rfl⟩, rfl⟩

end Address

/-! ## Addresses as texts -/

/-- How many groups there are between the colons. -/
def countGroups (b : Str) : Nat := (b.splitOn colon).countP fun g => !g.isEmpty

/-- The length of an address in groups; four octets are as long as two groups. -/
def units (b : Str) : Nat := countGroups b + if dot ∈ b then 1 else 0

/-- What is behind the last colon. -/
def lastGroup (b : Str) : Str := (b.splitOn colon).getLast?.getD []

/-- The octets at the end of an address. -/
def octets (b : Str) : List Str := if dot ∈ b then (lastGroup b).splitOn dot else []

section Texts

variable {octet : Language UInt8} {w g l r x y : Str} {n k : Nat}

theorem group_spec (inside : g ∈ lang false Rfc3986.h16) :
    g ≠ [] ∧ Free (.of ":.") g ∧ ∀ s, (g ++ s).head? ≠ some colon := by
  have free : Free (.of ":.") g := .of_mem_lang (by decide) (by decide) inside
  cases g with
  | nil => exact absurd (nil_mem_lang.mp inside) (by decide)
  | cons c g =>
    refine ⟨List.cons_ne_nil c g, free, fun s head => ?_⟩
    exact free.not_mem (c := colon) (by decide) (Option.some.inj head ▸ List.mem_cons_self)

theorem countGroups_colon : countGroups (x ++ colon :: y) = countGroups x + countGroups y := by
  rw [countGroups, List.splitOn_append_cons_self, List.countP_append]
  rfl

theorem countGroups_single (some : g ≠ []) (not : colon ∉ g) : countGroups g = 1 := by
  rw [countGroups, List.splitOn_eq_singleton not]
  simp [some]

theorem lastGroup_colon : lastGroup (x ++ colon :: y) = lastGroup y := by
  have some : (y.splitOn colon).getLast?.isSome = true := by
    rw [List.getLast?_isSome]
    exact List.splitOn_ne_nil colon y
  rw [lastGroup, List.splitOn_append_cons_self, List.getLast?_append, Option.or_of_isSome some]
  rfl

theorem lastGroup_single (not : colon ∉ g) : lastGroup g = g := by
  rw [lastGroup, List.splitOn_eq_singleton not]
  rfl

/-- What groups with their colons are before anything. -/
structure Colons (n : Nat) (w : Str) : Prop where
  free : Free (.of ".") w
  count : ∀ s, countGroups (w ++ s) = n + countGroups s
  last : ∀ s, lastGroup (w ++ s) = lastGroup s
  head : ∀ s, s.head? ≠ some colon → (w ++ s).head? ≠ some colon

theorem groupsColon_spec : ∀ {n : Nat} {w : Str}, w ∈ groupsColon n → Colons n w := by
  intro n
  induction n with
  | zero =>
    intro w inside
    rw [groupsColon, pow_zero, Language.mem_one] at inside
    rw [inside]
    exact ⟨.nil, fun s => (Nat.zero_add _).symm, fun s => rfl, fun s => id⟩
  | succ n ih =>
    intro w inside
    rw [groupsColon, pow_succ', Language.mem_mul] at inside
    obtain ⟨_, inGroup, w, inW, rfl⟩ := inside
    obtain ⟨g, inG, _, inC, rfl⟩ := mem_lang_seq.mp inGroup
    obtain rfl : _ = [colon] := (mem_lang_lit ":").mp inC
    obtain ⟨some, free, head⟩ := group_spec inG
    have rest := ih inW
    have shape : ∀ s, g ++ [colon] ++ w ++ s = g ++ colon :: (w ++ s) := by simp
    refine ⟨?_, fun s => ?_, fun s => ?_, fun s _ => ?_⟩
    · exact ((free.mono (by decide)).append (.cons (by decide) .nil)).append rest.free
    · rw [shape, countGroups_colon, rest.count, countGroups_single some (free.not_mem (by decide))]
      omega
    · rw [shape, lastGroup_colon, rest.last]
    · rw [shape]
      exact head _

/-- What groups are. -/
structure Groups (n : Nat) (w : Str) : Prop where
  free : Free (.of ".") w
  count : countGroups w = n
  empty : w = [] ↔ n = 0
  head : w.head? ≠ some colon

theorem groups_spec (inside : w ∈ groups n) : Groups n w := by
  cases n with
  | zero =>
    rw [mem_groups_zero.mp inside]
    exact ⟨.nil, rfl, by simp, by simp⟩
  | succ n =>
    obtain ⟨p, inP, g, inG, rfl⟩ := mem_groups_succ.mp inside
    obtain ⟨some, free, head⟩ := group_spec inG
    have first := groupsColon_spec inP
    refine ⟨first.free.append (free.mono (by decide)), ?_, by simp [some], first.head g ?_⟩
    · rw [first.count, countGroups_single some (free.not_mem (by decide))]
    · rw [← List.append_nil g]
      exact head []

/-- Octets are told apart by the delimiters of addresses. -/
def OctetLike (octet : Language UInt8) : Prop := ∀ o ∈ octet, Free (.of ":.") o

theorem dotted_spec (like : OctetLike octet) {a b c d : Str} (inA : a ∈ octet) (inB : b ∈ octet) (inC : c ∈ octet)
    (inD : d ∈ octet) : Free (.of ":") (a ++ dot :: (b ++ dot :: (c ++ dot :: d))) ∧
      (a ++ dot :: (b ++ dot :: (c ++ dot :: d))).splitOn dot = [a, b, c, d] := by
  have noColon : ∀ {o}, o ∈ octet → Free (.of ":") o := fun inO => (like _ inO).mono (by decide)
  have noDot : ∀ {o}, o ∈ octet → dot ∉ o := fun inO => (like _ inO).not_mem (by decide)
  constructor
  · exact (noColon inA).append (.cons (by decide) ((noColon inB).append (.cons (by decide) ((noColon inC).append
      (.cons (by decide) (noColon inD))))))
  · rw [List.splitOn_append_cons_self_of_not_mem (noDot inA), List.splitOn_append_cons_self_of_not_mem (noDot inB),
      List.splitOn_append_cons_self_of_not_mem (noDot inC), List.splitOn_eq_singleton (noDot inD)]

theorem octets_dotted (like : OctetLike octet) {j : Nat} {p a b c d : Str} (inP : p ∈ groupsColon j) (inA : a ∈ octet)
    (inB : b ∈ octet) (inC : c ∈ octet) (inD : d ∈ octet) :
    octets (p ++ (a ++ dot :: (b ++ dot :: (c ++ dot :: d)))) = [a, b, c, d] := by
  obtain ⟨noColon, split⟩ := dotted_spec like inA inB inC inD
  have hasDot : dot ∈ p ++ (a ++ dot :: (b ++ dot :: (c ++ dot :: d))) := by simp
  rw [octets, if_pos hasDot, (groupsColon_spec inP).last, lastGroup_single (noColon.not_mem (by decide)), split]

/-- The end of an address: its length, and its octets. -/
theorem tail_spec (like : OctetLike octet) (inside : r ∈ tail octet n) :
    units r = n ∧ r.head? ≠ some colon ∧ ∀ o ∈ octets r, o ∈ octet := by
  rcases inside with inside | ⟨j, rfl, p, inP, q, ⟨a, inA, b, inB, c, inC, d, inD, rfl⟩, rfl⟩
  · have whole := groups_spec inside
    have noDot : dot ∉ r := whole.free.not_mem (by decide)
    rw [units, octets, if_neg noDot, if_neg noDot, whole.count]
    exact ⟨rfl, whole.head, fun o mem => absurd mem List.not_mem_nil⟩
  · obtain ⟨noColon, -⟩ := dotted_spec like inA inB inC inD
    have first := groupsColon_spec inP
    have hasDot : dot ∈ p ++ (a ++ dot :: (b ++ dot :: (c ++ dot :: d))) := by simp
    have some : a ++ dot :: (b ++ dot :: (c ++ dot :: d)) ≠ [] := by simp
    rw [octets_dotted like inP inA inB inC inD, units, if_pos hasDot, first.count,
      countGroups_single some (noColon.not_mem (by decide))]
    refine ⟨by omega, first.head _ fun head => ?_, by simp [inA, inB, inC, inD]⟩
    exact noColon.not_mem (c := colon) (by decide) (List.mem_of_head? head)

/-- What is before `::` changes the length only. -/
theorem units_elided (inL : l ∈ groups k) : units (l ++ colon :: colon :: r) = k + units r ∧
    octets (l ++ colon :: colon :: r) = octets r ∧ ((l ++ colon :: colon :: r).head? = some colon ↔ k = 0) := by
  have first := groups_spec inL
  have noDot : dot ∉ l := first.free.not_mem (by decide)
  have dots : dot ∈ l ++ colon :: colon :: r ↔ dot ∈ r := by
    simp [noDot, (by decide : dot ≠ colon)]
  have count : countGroups (l ++ colon :: colon :: r) = k + countGroups r := by
    rw [countGroups_colon, first.count, ← List.nil_append (colon :: r), countGroups_colon]
    exact congrArg (k + ·) (Nat.zero_add _)
  have last : lastGroup (l ++ colon :: colon :: r) = lastGroup r := by
    rw [lastGroup_colon, ← List.nil_append (colon :: r), lastGroup_colon]
  refine ⟨?_, ?_, ?_⟩
  · rw [units, units, count, Nat.add_assoc]
    simp only [dots]
  · rw [octets, octets, last]
    simp only [dots]
  · rw [← first.empty]
    cases l with
    | nil => simp
    | cons c l => simpa using first.head

theorem tail_of_octets {octet' : Language UInt8} (like : OctetLike octet) (inside : r ∈ tail octet n)
    (all : ∀ o ∈ octets r, o ∈ octet') : r ∈ tail octet' n := by
  rcases inside with inside | ⟨j, rfl, p, inP, q, ⟨a, inA, b, inB, c, inC, d, inD, rfl⟩, rfl⟩
  · exact .inl inside
  · rw [octets_dotted like inP inA inB inC inD] at all
    exact .inr ⟨j, rfl, p, inP, _, ⟨a, all a (by simp), b, all b (by simp), c, all c (by simp), d, all d (by simp), rfl⟩,
      rfl⟩

/-- The same for four octets alone. -/
theorem dotted_of_octets {octet' : Language UInt8} (like : OctetLike octet) (inside : r ∈ dotted octet)
    (all : ∀ o ∈ octets r, o ∈ octet') : r ∈ dotted octet' := by
  obtain ⟨a, inA, b, inB, c, inC, d, inD, rfl⟩ := inside
  have none : ([] : Str) ∈ groupsColon 0 := by
    rw [groupsColon, pow_zero]
    rfl
  rw [← List.nil_append (a ++ _), octets_dotted like none inA inB inC inD] at all
  exact ⟨a, all a (by simp), b, all b (by simp), c, all c (by simp), d, all d (by simp), rfl⟩

theorem octets_of_dotted (like : OctetLike octet) (inside : r ∈ dotted octet) : ∀ o ∈ octets r, o ∈ octet := by
  obtain ⟨a, inA, b, inB, c, inC, d, inD, rfl⟩ := inside
  have none : ([] : Str) ∈ groupsColon 0 := by
    rw [groupsColon, pow_zero]
    rfl
  rw [← List.nil_append (a ++ _), octets_dotted like none inA inB inC inD]
  simp [inA, inB, inC, inD]

theorem mem_of_mem_splitOn {c d : UInt8} {o : Str} : ∀ {s : Str}, o ∈ s.splitOn d → c ∈ o → c ∈ s := by
  intro s
  induction s generalizing o with
  | nil =>
    intro mem here
    rw [List.splitOn_nil, List.mem_singleton] at mem
    rw [mem] at here
    cases here
  | cons e s ih =>
    intro mem here
    rw [List.splitOn_cons_eq_if_modifyHead] at mem
    split at mem
    · rcases List.mem_cons.mp mem with rfl | mem
      · cases here
      · exact List.mem_cons_of_mem e (ih mem here)
    · obtain ⟨first, rest, eq⟩ := List.exists_cons_of_ne_nil (List.splitOn_ne_nil d s)
      rw [eq, List.modifyHead_cons] at mem
      rw [eq] at ih
      rcases List.mem_cons.mp mem with rfl | mem
      · rcases List.mem_cons.mp here with rfl | here
        · exact List.mem_cons_self
        · exact List.mem_cons_of_mem e (ih List.mem_cons_self here)
      · exact List.mem_cons_of_mem e (ih (List.mem_cons_of_mem first mem) here)

/-- The bytes of the octets are bytes of the address. -/
theorem mem_of_mem_octets {c : UInt8} {o : Str} (mem : o ∈ octets w) (here : c ∈ o) : c ∈ w := by
  rw [octets] at mem
  split at mem
  · have inLast := mem_of_mem_splitOn mem here
    rw [lastGroup] at inLast
    cases last : (w.splitOn colon).getLast? with
    | none =>
      rw [last] at inLast
      cases inLast
    | some g =>
      rw [last] at inLast
      exact mem_of_mem_splitOn (List.mem_of_getLast? last) inLast
  · cases mem

variable {allowed allowed' : Nat → Nat → Prop}

/-- What an address is as a text. -/
theorem address_spec (like : OctetLike octet) (inside : w ∈ address octet allowed) : (∀ o ∈ octets w, o ∈ octet) ∧
    (units w = 8 ∨ ∃ k n, n ≤ 7 ∧ allowed k n ∧ units w = k + n ∧ (w.head? = some colon ↔ k = 0)) := by
  rcases inside with inside | ⟨k, n, le, ok, l, inL, r, inR, rfl⟩
  · obtain ⟨length, -, all⟩ := tail_spec like inside
    exact ⟨all, .inl length⟩
  · obtain ⟨length, -, all⟩ := tail_spec like inR
    obtain ⟨whole, same, head⟩ := units_elided (r := r) inL
    rw [same, whole, length]
    exact ⟨all, .inr ⟨k, n, le, ok, rfl, head⟩⟩

/-- An address of one grammar is one of another where its octets and its numbers of groups are. -/
theorem address_of {octet' : Language UInt8} (like : OctetLike octet) (inside : w ∈ address octet allowed)
    (all : ∀ o ∈ octets w, o ∈ octet')
    (groups : ∀ k n, n ≤ 7 → allowed k n → units w = k + n → (w.head? = some colon ↔ k = 0) → allowed' k n) :
    w ∈ address octet' allowed' := by
  rcases inside with inside | ⟨k, n, le, ok, l, inL, r, inR, rfl⟩
  · exact .inl (tail_of_octets like inside all)
  · obtain ⟨length, -, -⟩ := tail_spec like inR
    obtain ⟨whole, same, head⟩ := units_elided (r := r) inL
    rw [whole, length] at groups
    rw [same] at all
    exact .inr ⟨k, n, le, groups k n le ok rfl head, l, inL, r, tail_of_octets like inR all, rfl⟩

end Texts

/-! ## Octets -/

/-- An octet, written in either way. -/
def eitherOctet : Rule := alt Rfc3986.decOctet UriParser.decOctet

/-- An octet from 200 to 249, written in digits. -/
def high : Str → Bool
  | [a, b, _] => a == 0x32 && (ByteSet.range 0x30 0x34).mem b
  | _ => false

theorem octetLike_either : OctetLike (lang false eitherOctet) :=
  fun _ inside => .of_mem_lang (by decide) (by decide) inside

section Octets

variable {o : Str}

/-- The octets that are written in one way only. -/
def sameOctet : Rule :=
  oneOf [byte .digit, seq (byte (.range 0x31 0x39)) (byte .digit), seq (lit "1") (times 2 (byte .digit)),
    seq (lit "25") (byte (.range 0x30 0x35))]

/-- The others, with what stands for 2. -/
def otherOctet (two : UInt8) : Rule := cat [char two, byte (.range 0x30 0x34), byte .digit]

theorem mem_rfc_cases : o ∈ lang false Rfc3986.decOctet ↔
    o ∈ lang false sameOctet ∨ o ∈ lang false (otherOctet 0x32) := by
  have two : lang false (cat [lit "2", byte (.range 0x30 0x34), byte .digit] : Rule) = lang false (otherOctet 0x32) := rfl
  simp only [Rfc3986.decOctet, sameOctet, oneOf, mem_lang_alt, two]
  tauto

theorem mem_code_cases : o ∈ lang false UriParser.decOctet ↔ o ∈ lang false sameOctet ∨ o ∈ lang false (otherOctet 2) := by
  have two : lang false (cat [char 2, byte (.range 0x30 0x34), byte .digit] : Rule) = lang false (otherOctet 2) := rfl
  simp only [UriParser.decOctet, sameOctet, oneOf, mem_lang_alt, two]
  tauto

theorem high_other {two : UInt8} (inside : o ∈ lang false (otherOctet two)) : two ∈ o ∧ high o = (two == 0x32) := by
  simp only [otherOctet, cat, mem_lang_seq, mem_lang_char, mem_lang_byte] at inside
  obtain ⟨_, rfl, _, ⟨_, ⟨b, rfl, inB⟩, _, ⟨d, rfl, -⟩, rfl⟩, rfl⟩ := inside
  exact ⟨by simp, by simp [high, inB]⟩

theorem high_same (inside : o ∈ lang false sameOctet) : (2 : UInt8) ∉ o ∧ high o = false := by
  refine ⟨not_mem_of_mem_lang (by decide) (by decide) inside, ?_⟩
  simp only [sameOctet, oneOf, times, List.replicate, cat, mem_lang_alt, mem_lang_seq, mem_lang_byte, mem_lang_lit] at inside
  rcases inside with ⟨a, rfl, -⟩ | ⟨_, ⟨a, rfl, -⟩, _, ⟨b, rfl, -⟩, rfl⟩ |
    ⟨_, rfl, _, ⟨_, ⟨b, rfl, -⟩, _, ⟨d, rfl, -⟩, rfl⟩, rfl⟩ | ⟨_, rfl, _, ⟨d, rfl, -⟩, rfl⟩
  · rfl
  · rfl
  · rfl
  · rfl

/-- `uri.rl` does not have the others in digits. -/
theorem mem_decOctet : o ∈ lang false UriParser.decOctet ↔ o ∈ lang false eitherOctet ∧ high o = false := by
  rw [eitherOctet, mem_lang_alt, mem_rfc_cases, mem_code_cases]
  constructor
  · rintro (same | other)
    · exact ⟨.inr (.inl same), (high_same same).2⟩
    · exact ⟨.inr (.inr other), (high_other other).2⟩
  · rintro ⟨(same | other) | inside, low⟩
    · exact .inl same
    · rw [(high_other other).2] at low
      cases low
    · exact inside

/-- The RFC does not have them with the byte. -/
theorem mem_rfc_decOctet : o ∈ lang false Rfc3986.decOctet ↔ o ∈ lang false eitherOctet ∧ (2 : UInt8) ∉ o := by
  rw [eitherOctet, mem_lang_alt, mem_code_cases]
  constructor
  · intro inside
    exact ⟨.inl inside, not_mem_of_mem_lang (by decide) (by decide) inside⟩
  · rintro ⟨inside | same | other, not⟩
    · exact inside
    · exact mem_rfc_cases.mpr (.inl same)
    · exact absurd (high_other other).1 not

end Octets

/-! ## Literals -/

/-- Without groups before `::`, or with as many as there can be. -/
def filled (b : Str) : Bool := b.head? = some colon || 7 ≤ units b

/-- What `uri.rl` does not have of the literals of either grammar. -/
def refusedLiteral (b : Str) : Bool :=
  if b.head? = some 0x56 then true
  else if b.head? = some 0x76 then false
  else !filled b || (octets b).any high

section Literals

variable {b : Str}

theorem mem_code_ipv6 : b ∈ lang false UriParser.ipv6address ↔
    b ∈ lang false (Rfc3986.ipv6address eitherOctet) ∧ filled b = true ∧ (octets b).any high = false := by
  have code : b ∈ lang false UriParser.ipv6address ↔
      b ∈ address (lang false UriParser.decOctet) fun k n => k = 0 ∨ k + n = 7 :=
    mem_address before_code
  have rfc : b ∈ lang false (Rfc3986.ipv6address eitherOctet) ↔
      b ∈ address (lang false eitherOctet) fun k n => k + n ≤ 7 :=
    mem_address before_rfc
  have like : OctetLike (lang false UriParser.decOctet) := fun o inside => octetLike_either o (mem_decOctet.mp inside).1
  rw [code, rfc, filled, Bool.or_eq_true, decide_eq_true_iff, decide_eq_true_iff]
  simp only [List.any_eq_false]
  constructor
  · intro inside
    obtain ⟨all, length⟩ := address_spec like inside
    refine ⟨address_of like inside (fun o mem => (mem_decOctet.mp (all o mem)).1) fun k n le ok _ _ => ?_, ?_, fun o mem => ?_⟩
    · omega
    · rcases length with eight | ⟨k, n, le, ok, length, head⟩
      · exact .inr (by omega)
      · rcases ok with zero | seven
        · exact .inl (head.mpr zero)
        · exact .inr (by omega)
    · rw [(mem_decOctet.mp (all o mem)).2]
      exact Bool.false_ne_true
  · rintro ⟨inside, full, low⟩
    obtain ⟨all, -⟩ := address_spec octetLike_either inside
    refine address_of octetLike_either inside (fun o mem => ?_) fun k n le ok length head => ?_
    · exact mem_decOctet.mpr ⟨all o mem, Bool.eq_false_iff.mpr (low o mem)⟩
    · rcases full with first | seven
      · exact .inl (head.mp first)
      · exact .inr (by omega)

theorem mem_rfc_ipv6 : b ∈ lang false (Rfc3986.ipv6address Rfc3986.decOctet) ↔
    b ∈ lang false (Rfc3986.ipv6address eitherOctet) ∧ (2 : UInt8) ∉ b := by
  have address : ∀ octet : Rule, b ∈ lang false (Rfc3986.ipv6address octet) ↔
      b ∈ address (lang false octet) fun k n => k + n ≤ 7 := fun octet => mem_address before_rfc
  have like : OctetLike (lang false Rfc3986.decOctet) := fun o inside => octetLike_either o (mem_rfc_decOctet.mp inside).1
  rw [address eitherOctet]
  constructor
  · intro inside
    refine ⟨?_, not_mem_of_mem_lang (by decide) (by decide) inside⟩
    rw [address] at inside
    obtain ⟨all, -⟩ := address_spec like inside
    exact address_of like inside (fun o mem => (mem_rfc_decOctet.mp (all o mem)).1) fun k n le ok _ _ => ok
  · rintro ⟨inside, not⟩
    rw [address]
    obtain ⟨all, -⟩ := address_spec octetLike_either inside
    refine address_of octetLike_either inside (fun o mem => ?_) fun k n le ok _ _ => ok
    exact mem_rfc_decOctet.mpr ⟨all o mem, fun here => not (mem_of_mem_octets mem here)⟩

theorem head_ipvFuture (inside : b ∈ lang false Rfc3986.ipvFuture) : b.head? = some 0x76 ∨ b.head? = some 0x56 := by
  cases b with
  | nil => exact absurd (nil_mem_lang.mp inside) (by decide)
  | cons c b =>
    have start := mem_startSet_of_mem_lang (by decide) inside
    have set : startSet Rfc3986.ipvFuture = (ByteSet.single 0x76).union (.single 0x56) := by decide
    rw [set, ByteSet.mem_union, Bool.or_eq_true, ByteSet.mem_single, ByteSet.mem_single] at start
    rcases start with rfl | rfl
    · exact .inl rfl
    · exact .inr rfl

theorem head_ipv6 (inside : b ∈ lang false (Rfc3986.ipv6address eitherOctet)) :
    b.head? ≠ some 0x76 ∧ b.head? ≠ some 0x56 := by
  cases b with
  | nil => simp
  | cons c b =>
    have start := mem_startSet_of_mem_lang (by decide) inside
    constructor
    · intro head
      obtain rfl := Option.some.inj head
      exact absurd start (by decide)
    · intro head
      obtain rfl := Option.some.inj head
      exact absurd start (by decide)

theorem mem_code_ipvFuture : b ∈ lang false UriParser.ipvFuture ↔
    b ∈ lang false Rfc3986.ipvFuture ∧ b.head? = some 0x76 := by
  have anyCase : ∀ w : Str, w ∈ lang false (litAnyCase "v" : Rule) ↔ w = [0x76] ∨ w = [0x56] := by
    intro w
    change w ∈ lang false (byte ((ByteSet.single 0x76).union (.single 0x56)) : Rule) ↔ _
    simp only [mem_lang_byte, ByteSet.mem_union, Bool.or_eq_true, ByteSet.mem_single]
    constructor
    · rintro ⟨c, rfl, rfl | rfl⟩
      · exact .inl rfl
      · exact .inr rfl
    · rintro (rfl | rfl)
      · exact ⟨_, rfl, .inl rfl⟩
      · exact ⟨_, rfl, .inr rfl⟩
  let rest : Rule := cat [plus (byte .xdigit), lit ".", plus (oneOf [Rfc3986.unreserved, Rfc3986.subDelims, lit ":"])]
  change b ∈ lang false (seq (lit "v") rest) ↔ b ∈ lang false (seq (litAnyCase "v") rest) ∧ _
  simp only [mem_lang_seq, mem_lang_lit, anyCase]
  constructor
  · rintro ⟨_, rfl, v, inV, rfl⟩
    exact ⟨⟨_, .inl rfl, v, inV, rfl⟩, rfl⟩
  · rintro ⟨⟨_, rfl | rfl, v, inV, rfl⟩, head⟩
    · exact ⟨_, rfl, v, inV, rfl⟩
    · cases head

/-- The literals of `uri.rl`. -/
theorem mem_code_literal : b ∈ lang false (alt UriParser.ipv6address UriParser.ipvFuture) ↔
    b ∈ lang false (alt (Rfc3986.ipv6address eitherOctet) Rfc3986.ipvFuture) ∧ refusedLiteral b = false := by
  rw [mem_lang_alt, mem_lang_alt, mem_code_ipv6, mem_code_ipvFuture, refusedLiteral]
  constructor
  · rintro (⟨inside, full, low⟩ | ⟨inside, head⟩)
    · obtain ⟨notSmall, notCapital⟩ := head_ipv6 inside
      rw [if_neg notCapital, if_neg notSmall, full, low]
      exact ⟨.inl inside, rfl⟩
    · rw [if_neg (by rw [head]; decide), if_pos head]
      exact ⟨.inr inside, rfl⟩
  · rintro ⟨inside | inside, accepted⟩
    · obtain ⟨notSmall, notCapital⟩ := head_ipv6 inside
      rw [if_neg notCapital, if_neg notSmall, Bool.or_eq_false_iff, Bool.not_eq_false'] at accepted
      exact .inl ⟨inside, accepted⟩
    · rcases head_ipvFuture inside with small | capital
      · exact .inr ⟨inside, small⟩
      · rw [if_pos capital] at accepted
        cases accepted

/-- The literals of the RFC. -/
theorem mem_rfc_literal : b ∈ lang false (alt (Rfc3986.ipv6address Rfc3986.decOctet) Rfc3986.ipvFuture) ↔
    b ∈ lang false (alt (Rfc3986.ipv6address eitherOctet) Rfc3986.ipvFuture) ∧ (2 : UInt8) ∉ b := by
  rw [mem_lang_alt, mem_lang_alt, mem_rfc_ipv6, or_and_right]
  refine or_congr Iff.rfl (iff_self_and.mpr fun inside => ?_)
  exact not_mem_of_mem_lang (by decide) (by decide) inside

end Literals

/-! ## Names and octets -/

section Names

variable {h : Str}

theorem mem_regName (all : ∀ c ∈ h, ((ByteSet.alpha.union .digit).union (.of "-._~")).mem c = true) :
    h ∈ lang false Rfc3986.regName := by
  apply mem_lang_star_of_bytes
  intro c mem
  exact mem_lang_alt.mpr (.inl (mem_lang_byte.mpr ⟨c, rfl, all c mem⟩))

/-- Four octets in digits are a name. -/
theorem regName_of_octets (inside : h ∈ dotted (lang false eitherOctet)) (not : (2 : UInt8) ∉ h) :
    h ∈ lang false Rfc3986.regName := by
  have digits : h ∈ lang false (Rfc3986.ipv4address Rfc3986.decOctet) := by
    rw [mem_dotted]
    refine dotted_of_octets octetLike_either inside fun o mem => ?_
    have inO := octets_of_dotted octetLike_either inside o mem
    exact mem_rfc_decOctet.mpr ⟨inO, fun here => not (mem_of_mem_octets mem here)⟩
  refine mem_regName fun c mem => ?_
  exact ByteSet.mem_of_subset (by decide) (mem_uses_of_mem_lang (by decide) digits c mem)

theorem mem_code_name : h ∈ lang false (alt UriParser.ipv4address UriParser.regName) ↔
    h ∈ lang false (alt (Rfc3986.ipv4address eitherOctet) Rfc3986.regName) ∧
      ((2 : UInt8) ∈ h → (octets h).any high = false) := by
  have like : OctetLike (lang false UriParser.decOctet) := fun o inside => octetLike_either o (mem_decOctet.mp inside).1
  have code : h ∈ lang false UriParser.ipv4address ↔ h ∈ dotted (lang false UriParser.decOctet) := mem_dotted
  rw [mem_lang_alt, mem_lang_alt, code, mem_dotted]
  simp only [List.any_eq_false]
  constructor
  · rintro (inside | inside)
    · have all := octets_of_dotted like inside
      refine ⟨.inl (dotted_of_octets like inside fun o mem => (mem_decOctet.mp (all o mem)).1), fun _ o mem => ?_⟩
      rw [(mem_decOctet.mp (all o mem)).2]
      exact Bool.false_ne_true
    · exact ⟨.inr inside, fun here => absurd here (not_mem_of_mem_lang (by decide) (by decide) inside)⟩
  · rintro ⟨inside | inside, low⟩
    · by_cases here : (2 : UInt8) ∈ h
      · refine .inl (dotted_of_octets octetLike_either inside fun o mem => mem_decOctet.mpr ⟨?_, ?_⟩)
        · exact octets_of_dotted octetLike_either inside o mem
        · exact Bool.eq_false_iff.mpr (low here o mem)
      · exact .inr (regName_of_octets inside here)
    · exact .inr inside

theorem mem_rfc_name : h ∈ lang false (alt (Rfc3986.ipv4address Rfc3986.decOctet) Rfc3986.regName) ↔
    h ∈ lang false (alt (Rfc3986.ipv4address eitherOctet) Rfc3986.regName) ∧ (2 : UInt8) ∉ h := by
  constructor
  · intro inside
    refine ⟨?_, not_mem_of_mem_lang (by decide) (by decide) inside⟩
    rw [mem_lang_alt] at inside ⊢
    rcases inside with inside | inside
    · rw [mem_dotted] at inside ⊢
      have like : OctetLike (lang false Rfc3986.decOctet) := fun o inO => octetLike_either o (mem_rfc_decOctet.mp inO).1
      refine .inl (dotted_of_octets like inside fun o mem => ?_)
      exact (mem_rfc_decOctet.mp (octets_of_dotted like inside o mem)).1
    · exact .inr inside
  · rintro ⟨inside, not⟩
    rw [mem_lang_alt] at inside ⊢
    rcases inside with inside | inside
    · exact .inr (regName_of_octets (mem_dotted.mp inside) not)
    · exact .inr inside

end Names

/-! ## Hosts -/

/-- What `uri.rl` does not have of the hosts of either grammar. -/
def refused (h : Str) : Bool :=
  if h.head? = some opening then refusedLiteral (h.drop 1).dropLast
  else h.contains 2 && (octets h).any high

section Hosts

variable {octet literal name : Rule} {h : Str}

theorem mem_lang_bracketed : h ∈ lang false (alt (cat [lit "[", literal, lit "]"]) name) ↔
    (∃ b ∈ lang false literal, h = opening :: (b ++ [closing])) ∨ h ∈ lang false name := by
  simp only [mem_lang_alt, cat, mem_lang_seq, mem_lang_lit]
  refine or_congr ?_ Iff.rfl
  constructor
  · rintro ⟨_, rfl, _, ⟨b, inB, _, rfl, rfl⟩, rfl⟩
    exact ⟨b, inB, rfl⟩
  · rintro ⟨b, inB, rfl⟩
    exact ⟨_, rfl, _, ⟨b, inB, _, rfl, rfl⟩, rfl⟩

theorem refused_literal (b : Str) : refused (opening :: (b ++ [closing])) = refusedLiteral b := by
  simp [refused]

theorem refused_name (free : Free (.of "[") h) : refused h = (h.contains 2 && (octets h).any high) := by
  refine if_neg fun head => ?_
  exact free.not_mem (c := opening) (by decide) (List.mem_of_head? head)

/-- The hosts of `uri.rl`. -/
theorem mem_code_host : h ∈ lang false UriParser.host ↔
    h ∈ lang false (Rfc3986.hostOf eitherOctet) ∧ refused h = false := by
  have code : h ∈ lang false UriParser.host ↔
      (∃ b ∈ lang false (alt UriParser.ipv6address UriParser.ipvFuture), h = opening :: (b ++ [closing])) ∨
        h ∈ lang false (alt UriParser.ipv4address UriParser.regName) := mem_lang_bracketed
  have either : h ∈ lang false (Rfc3986.hostOf eitherOctet) ↔
      (∃ b ∈ lang false (alt (Rfc3986.ipv6address eitherOctet) Rfc3986.ipvFuture), h = opening :: (b ++ [closing])) ∨
        h ∈ lang false (alt (Rfc3986.ipv4address eitherOctet) Rfc3986.regName) := mem_lang_bracketed
  have named : h ∈ lang false (alt (Rfc3986.ipv4address eitherOctet) Rfc3986.regName) →
      refused h = (h.contains 2 && (octets h).any high) :=
    fun inside => refused_name (.of_mem_lang (by decide) (by decide) inside)
  have low : (h.contains 2 && (octets h).any high) = false ↔ ((2 : UInt8) ∈ h → (octets h).any high = false) := by
    by_cases here : (2 : UInt8) ∈ h
    · simp [here]
    · simp [here]
  rw [code, either, or_and_right]
  refine or_congr ?_ ?_
  · constructor
    · rintro ⟨b, inB, rfl⟩
      obtain ⟨inB, accepted⟩ := mem_code_literal.mp inB
      exact ⟨⟨b, inB, rfl⟩, (refused_literal b).trans accepted⟩
    · rintro ⟨⟨b, inB, rfl⟩, accepted⟩
      rw [refused_literal] at accepted
      exact ⟨b, mem_code_literal.mpr ⟨inB, accepted⟩, rfl⟩
  · rw [mem_code_name]
    refine and_congr_right fun inside => ?_
    rw [named inside, low]

/-- The hosts of the RFC. -/
theorem mem_rfc_host : h ∈ lang false Rfc3986.host ↔
    h ∈ lang false (Rfc3986.hostOf eitherOctet) ∧ (2 : UInt8) ∉ h := by
  have bracketed : ∀ octet : Rule, h ∈ lang false (Rfc3986.hostOf octet) ↔
      (∃ b ∈ lang false (alt (Rfc3986.ipv6address octet) Rfc3986.ipvFuture), h = opening :: (b ++ [closing])) ∨
        h ∈ lang false (alt (Rfc3986.ipv4address octet) Rfc3986.regName) := fun octet => mem_lang_bracketed
  have brackets : ∀ b : Str, (2 : UInt8) ∉ opening :: (b ++ [closing]) ↔ (2 : UInt8) ∉ b := by
    intro b
    simp [opening, closing]
  rw [Rfc3986.host, bracketed, bracketed, or_and_right]
  refine or_congr ?_ mem_rfc_name
  constructor
  · rintro ⟨b, inB, rfl⟩
    obtain ⟨inB, not⟩ := mem_rfc_literal.mp inB
    exact ⟨⟨b, inB, rfl⟩, (brackets b).mpr not⟩
  · rintro ⟨⟨b, inB, rfl⟩, not⟩
    exact ⟨b, mem_rfc_literal.mpr ⟨inB, (brackets b).mp not⟩, rfl⟩

theorem hostLike_either (inside : h ∈ lang false (Rfc3986.hostOf eitherOctet)) : Rfc3986.HostLike h :=
  Rfc3986.hostLike_of_mem_lang (alt (Rfc3986.ipv6address eitherOctet) Rfc3986.ipvFuture)
    (alt (Rfc3986.ipv4address eitherOctet) Rfc3986.regName) (by decide) (by decide) (by decide) (by decide) inside

end Hosts

/-! ## What is accepted -/

section Accepted

open Rfc3986 (Parts Authority)

/-- `create` returns a `URI`. -/
def Accepts (s : Str) : Prop := ∃ uri, create s = some (some uri)

/-- A host has the byte 2 in place of a digit. -/
def byteTwo (p : Parts) : Bool := p.authority.any fun a => a.host.contains 2

/-- `create` does not return a `URI`, though the grammar with both ways to write an octet derives the string: a host
that `uri.rl` does not have, or an empty port behind a scheme. -/
def dropped (p : Parts) : Bool := emptyPort p || p.authority.any fun a => refused a.host

variable {p : Parts} {s : Str}

theorem valid_of_host {host host' : Rule} (valid : p.Valid host)
    (hosts : ∀ a ∈ p.authority, a.host ∈ lang false host') : p.Valid host' :=
  ⟨valid.scheme, fun a mem => ⟨(valid.authority a mem).userinfo, hosts a mem, (valid.authority a mem).port⟩, valid.path,
    valid.query, valid.fragment⟩

/-- A string is derived where its components are valid. -/
theorem mem_reference_iff {host : Rule} (like : ∀ h ∈ lang false host, Rfc3986.HostLike h) :
    s ∈ lang false (Rfc3986.reference host) ↔ (Parts.of s).Valid host ∧ (Parts.of s).text = s := by
  rw [Rfc3986.mem_lang_reference]
  constructor
  · rintro ⟨p, valid, rfl⟩
    rw [Parts.of_text valid fun a mem => like _ (valid.authority a mem).host]
    exact ⟨valid, rfl⟩
  · rintro ⟨valid, text⟩
    exact ⟨_, valid, text⟩

theorem accepts_iff : Accepts s ↔
    s ∈ lang false (Rfc3986.reference (Rfc3986.hostOf eitherOctet)) ∧ dropped (Parts.of s) = false := by
  rw [mem_reference_iff fun h => hostLike_either]
  have refusals : (Parts.of s).authority.any (fun a => refused a.host) = false ↔
      ∀ a ∈ (Parts.of s).authority, refused a.host = false := by
    cases (Parts.of s).authority with
    | none => simp
    | some a => simp
  rw [dropped, Bool.or_eq_false_iff, refusals]
  constructor
  · rintro ⟨uri, accepted⟩
    have inside := mem_lang_of_create accepted
    rw [UriParser.lang_uriReference, mem_reference_iff fun h => UriParser.hostLike] at inside
    obtain ⟨valid, text⟩ := inside
    have hosts := fun a mem => mem_code_host.mp (valid.authority a mem).host
    refine ⟨⟨valid_of_host valid fun a mem => (hosts a mem).1, text⟩, ?_, fun a mem => (hosts a mem).2⟩
    rw [Bool.eq_false_iff]
    intro empty
    rw [← text, create_throws valid empty] at accepted
    cases accepted
  · rintro ⟨⟨valid, text⟩, filled, hosts⟩
    have valid' : (Parts.of s).Valid UriParser.host :=
      valid_of_host valid fun a mem => mem_code_host.mpr ⟨(valid.authority a mem).host, hosts a mem⟩
    obtain ⟨n, made⟩ := create_text valid' filled
    rw [text] at made
    exact ⟨_, made⟩

theorem rfc_iff : s ∈ lang false (Rfc3986.reference Rfc3986.host) ↔
    s ∈ lang false (Rfc3986.reference (Rfc3986.hostOf eitherOctet)) ∧ byteTwo (Parts.of s) = false := by
  have like : ∀ h ∈ lang false Rfc3986.host, Rfc3986.HostLike h := fun h inside =>
    hostLike_either (mem_rfc_host.mp inside).1
  have bytes : byteTwo (Parts.of s) = false ↔ ∀ a ∈ (Parts.of s).authority, (2 : UInt8) ∉ a.host := by
    rw [byteTwo]
    cases (Parts.of s).authority with
    | none => simp
    | some a => simp
  rw [mem_reference_iff like, mem_reference_iff fun h => hostLike_either, bytes]
  constructor
  · rintro ⟨valid, text⟩
    have hosts := fun a mem => mem_rfc_host.mp (valid.authority a mem).host
    exact ⟨⟨valid_of_host valid fun a mem => (hosts a mem).1, text⟩, fun a mem => (hosts a mem).2⟩
  · rintro ⟨⟨valid, text⟩, not⟩
    exact ⟨valid_of_host valid fun a mem => mem_rfc_host.mpr ⟨(valid.authority a mem).host, not a mem⟩, text⟩

/-- `create` accepts a string exactly when the RFC derives it, if and only if the string has no reading in the grammar
with both ways to write an octet, or the byte 2 is in its host just where `create` drops it for another reason. -/
theorem accepts_iff_rfc_iff (s : Str) : (Accepts s ↔ s ∈ lang false (Rfc3986.reference Rfc3986.host)) ↔
    (s ∈ lang false (Rfc3986.reference (Rfc3986.hostOf eitherOctet)) → byteTwo (Parts.of s) = dropped (Parts.of s)) := by
  rw [accepts_iff, rfc_iff]
  constructor
  · intro same inside
    have flags : dropped (Parts.of s) = false ↔ byteTwo (Parts.of s) = false := by
      simpa [inside] using same
    rw [Bool.eq_iff_iff, ← not_iff_not, Bool.not_eq_true, Bool.not_eq_true, flags]
  · intro flags
    refine and_congr_right fun inside => ?_
    rw [flags inside]

/-- `1::` is an address of the RFC, and not one of `uri.rl`. -/
theorem not_accepts_iff_rfc :
    ¬ ∀ s : Str, Accepts s ↔ s ∈ lang false (Rfc3986.reference Rfc3986.host) := by
  intro conforms
  have null : create (bytes "http://[1::]/") = some none := by decide +kernel
  have derived : bytes "http://[1::]/" ∈ lang false (Rfc3986.reference Rfc3986.host) :=
    mem_lang_of_reads (by decide) (by decide +kernel)
  obtain ⟨uri, accepted⟩ := (conforms _).mpr derived
  rw [null] at accepted
  cases accepted

end Accepted

end Sylar.Uri
