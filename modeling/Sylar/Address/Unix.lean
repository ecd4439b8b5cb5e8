import Sylar.Address.Order

/-!
# The path of a Unix address

`UnixAddress(path)` copies the path with `strncpy`, which stops at the first zero byte, and takes the
length from the string. The bytes that stand under this length are therefore the path up to its first
zero byte, filled up with zero bytes (`padded`), and this is all that a comparison sees (`eq_ofPath`).
An abstract name begins with a zero byte, so that nothing of it is copied: all abstract names of one
length are the same address. `get_path` reads a name that begins otherwise up to its first zero byte
only. `keepsPath_iff` says which paths are kept.
-/

namespace Sylar

namespace UnixAddress

variable {path other : List UInt8} {a b : UnixAddress}

/-- The bytes that are stored for a path, as many as the path has. -/
def padded (path : List UInt8) : List UInt8 :=
  cString path ++ List.replicate (path.length - (cString path).length) 0

theorem length_cString_le (path : List UInt8) : (cString path).length ≤ path.length :=
  (List.takeWhile_prefix _).length_le

@[simp] theorem length_padded (path : List UInt8) : (padded path).length = path.length := by
  have := length_cString_le path
  simp only [padded, List.length_append, List.length_replicate]
  omega

theorem zero_notMem_cString (path : List UInt8) : (0 : UInt8) ∉ cString path := by
  intro inside
  simpa using List.mem_takeWhile_imp inside

theorem cString_eq_self (free : (0 : UInt8) ∉ path) : cString path = path := by
  apply List.takeWhile_eq_self_iff.mpr
  intro x inside
  simp only [bne_iff_ne]
  rintro rfl
  exact free inside

theorem padded_eq_self (free : (0 : UInt8) ∉ path) : padded path = path := by
  simp [padded, cString_eq_self free]

/-- Nothing of a name that begins with a zero byte is stored. -/
theorem padded_zero_cons (name : List UInt8) :
    padded (0 :: name) = List.replicate (name.length + 1) 0 := by
  simp [padded, cString]

/-- Bytes that hold no zero byte were stored for themselves only. -/
theorem eq_of_padded_eq (free : (0 : UInt8) ∉ path) (same : padded other = path) : other = path := by
  by_cases zero : (0 : UInt8) ∈ other
  · have short : (cString other).length < other.length := by
      apply Nat.lt_of_le_of_ne (length_cString_le other)
      intro full
      have whole : cString other = other := (List.takeWhile_prefix _).eq_of_length full
      exact zero_notMem_cString other (by rwa [whole])
    have filled : (0 : UInt8) ∈ padded other := by
      simp only [padded, List.mem_append, List.mem_replicate]
      exact .inr ⟨by omega, trivial⟩
    rw [same] at filled
    exact absurd filled free
  · rwa [padded_eq_self zero] at same

/-! ## What the constructor builds -/

theorem ofPath_long (long : path.length > MAX_PATH_LEN) :
    ofPath path = .error "UnixAddress: path length too long" := by
  simp only [ofPath, dif_pos long]

theorem ofPath_short (short : path.length ≤ MAX_PATH_LEN) : ∃ a, ofPath path = .ok a := by
  have fits : ¬ path.length > MAX_PATH_LEN := by omega
  simp only [ofPath, dif_neg fits]
  exact ⟨_, rfl⟩

/-- The record of a constructed address: the padded path under the stored length, zeros behind it. -/
theorem ofPath_ok (built : ofPath path = .ok a) :
    path.length ≤ MAX_PATH_LEN ∧ a.length = sunPathOffset + path.length ∧
      a.address.family = BitVec.ofNat 16 AF_UNIX ∧
      a.address.path.toList = padded path ++ List.replicate (108 - path.length) 0 := by
  rw [ofPath] at built
  split at built
  · cases built
  · rename_i fits
    cases built
    refine ⟨by omega, rfl, rfl, ?_⟩
    have whole : List.take path.length (cString path) = cString path :=
      List.take_of_length_le (length_cString_le path)
    have stored : strncpy (List.replicate 108 0) path path.length =
        padded path ++ List.replicate (108 - path.length) 0 := by
      simp only [strncpy, padded, List.drop_replicate]
      rw [← cString, whole]
    simpa using stored

theorem take_path (built : ofPath path = .ok a) :
    a.address.path.toList.take path.length = padded path := by
  rw [(ofPath_ok built).2.2.2]
  simp

theorem key_ofPath (host : Host) (built : ofPath path = .ok a) :
    (Address.unix a).key host = host.toMemory 2 AF_UNIX ++ padded path := by
  obtain ⟨-, length, family, stored⟩ := ofPath_ok built
  have head : (host.toMemory 2 AF_UNIX).length = sunPathOffset := host.length_toMemory 2 _
  simp only [Address.key, Address.getAddr, Address.getAddrLen, SockaddrUn.memory, family, length, stored]
  rw [show (BitVec.ofNat 16 AF_UNIX).toNat = AF_UNIX from rfl, ← head, List.take_append]
  simp

/-- Two constructed addresses are equal when the same bytes were stored for their paths. -/
theorem eq_ofPath (host : Host) (first : ofPath path = .ok a) (second : ofPath other = .ok b) :
    (Address.unix a).eq host (Address.unix b) = some (decide (padded path = padded other)) := by
  rw [Address.eq_eq host (Address.inside_unix a) (Address.inside_unix b), key_ofPath host first,
    key_ofPath host second, Option.some_inj, decide_eq_decide, List.append_cancel_left_eq]

/-! ## `get_path` -/

/-- A path as `get_path` is to show it: a leading zero byte is written out. -/
def shown : List UInt8 → List UInt8
  | [] => []
  | c :: name => if c = 0 then [92, 48] ++ name else c :: name

theorem getPath_nil (built : ofPath [] = .ok a) : a.getPath = [] := by
  have length := (ofPath_ok built).2.1
  simp only [getPath, length, List.length_nil, Nat.add_zero, gt_iff_lt, Nat.lt_irrefl, if_false]

theorem getPath_zero_cons {name : List UInt8} (built : ofPath (0 :: name) = .ok a) :
    a.getPath = [92, 48] ++ List.replicate name.length 0 := by
  obtain ⟨short, length, -, stored⟩ := ofPath_ok built
  rw [padded_zero_cons] at stored
  have all : a.address.path.toList = List.replicate 108 0 := by
    rw [stored, List.replicate_append_replicate]
    congr 1
    simp only [MAX_PATH_LEN, List.length_cons] at *
    omega
  have first : a.address.path[0] = 0 := path_first (all.trans List.replicate_succ)
  have long : a.length > sunPathOffset := by
    rw [length, List.length_cons]
    omega
  have rest : (List.replicate 108 (0 : UInt8)).drop 1 = List.replicate 107 0 := List.drop_replicate
  have many : min (a.length - sunPathOffset - 1) 107 = name.length := by
    simp only [MAX_PATH_LEN, List.length_cons] at short length
    omega
  rw [getPath, if_pos long, if_pos first, all, rest, List.take_replicate, many]

theorem getPath_cons {c : UInt8} {name : List UInt8} (nonzero : c ≠ 0)
    (built : ofPath (c :: name) = .ok a) : a.getPath = cString (c :: name) := by
  obtain ⟨-, length, -, stored⟩ := ofPath_ok built
  have head : padded (c :: name) = c :: (padded (c :: name)).tail := by
    simp [padded, cString, List.takeWhile_cons_of_pos, nonzero]
  have first : a.address.path[0] = c := by
    rw [head] at stored
    exact path_first stored
  -- what is stored behind the copied bytes is zero throughout
  have read : cString a.address.path.toList = cString (c :: name) := by
    rw [stored, padded, List.append_assoc, List.replicate_append_replicate, cString, cString,
      List.takeWhile_append_of_pos]
    · simp
    · intro x inside
      have nonzero : x ≠ 0 := fun zero => zero_notMem_cString (c :: name) (zero ▸ inside)
      simpa using nonzero
  have long : a.length > sunPathOffset := by
    rw [length, List.length_cons]
    omega
  rw [getPath, if_pos long, first, if_neg nonzero, read]

/-! ## Which paths are kept -/

/-- What the constructor owes a path: one that fits is stored whole, with its length, is shown by
`get_path`, and is told from every other path; one that does not fit is refused. -/
def KeepsPath (host : Host) (path : List UInt8) : Prop :=
  (path.length ≤ MAX_PATH_LEN →
    ∃ a, ofPath path = .ok a ∧ (Address.unix a).getAddrLen = sunPathOffset + path.length ∧
      a.address.path.toList.take path.length = path ∧ a.getPath = shown path ∧
      ∀ other b, ofPath other = .ok b → other ≠ path →
        (Address.unix a).eq host (Address.unix b) = some false) ∧
  (path.length > MAX_PATH_LEN → ∃ error, ofPath path = .error error)

/-- A path of which nothing is lost is told from every other. -/
theorem differs (host : Host) (own : ∀ other, padded other = padded path → other = path)
    (first : ofPath path = .ok a) (second : ofPath other = .ok b) (ne : other ≠ path) :
    (Address.unix a).eq host (Address.unix b) = some false := by
  rw [eq_ofPath host first second, Option.some_inj, decide_eq_false_iff_not]
  intro same
  exact ne (own other same.symm)

theorem keepsPath_of_free (host : Host) (free : (0 : UInt8) ∉ path) : KeepsPath host path := by
  refine ⟨fun short => ?_, fun long => ⟨_, ofPath_long long⟩⟩
  obtain ⟨a, built⟩ := ofPath_short short
  have whole := padded_eq_self free
  refine ⟨a, built, (ofPath_ok built).2.1, by rw [take_path built, whole], ?_, ?_⟩
  · cases path with
    | nil => exact getPath_nil built
    | cons c name =>
      have nonzero : c ≠ 0 := fun zero => free (by simp [zero])
      rw [getPath_cons nonzero built, cString_eq_self free, shown, if_neg nonzero]
  · intro other b second
    apply differs host _ built second
    intro other same
    exact eq_of_padded_eq free (same.trans whole)

theorem keepsPath_zero (host : Host) : KeepsPath host [0] := by
  refine ⟨fun short => ?_, fun long => ⟨_, ofPath_long long⟩⟩
  obtain ⟨a, built⟩ := ofPath_short short
  refine ⟨a, built, (ofPath_ok built).2.1, take_path built, getPath_zero_cons built, ?_⟩
  intro other b second
  apply differs host _ built second
  intro other same
  have one : other.length = 1 := by
    rw [← length_padded, same]
    rfl
  obtain ⟨c, rfl⟩ := List.length_eq_one_iff.mp one
  by_cases zero : c = 0
  · rw [zero]
  · have free : (0 : UInt8) ∉ [c] := by
      simp only [List.mem_singleton]
      exact Ne.symm zero
    rw [padded_eq_self free] at same
    exact same

/-- Of the names that begin with a zero byte, two of every greater length share one address. -/
theorem not_keepsPath_abstract (host : Host) {name : List UInt8} (more : name ≠ [])
    (short : (0 :: name).length ≤ MAX_PATH_LEN) : ¬ KeepsPath host (0 :: name) := by
  intro kept
  obtain ⟨a, built, -, -, -, apart⟩ := kept.1 short
  -- a second name of this length, whatever the first one is
  obtain ⟨twin, length, ne⟩ : ∃ twin : List UInt8, twin.length = name.length ∧ twin ≠ name := by
    cases name with
    | nil => exact absurd rfl more
    | cons c name =>
      refine ⟨(c + 1) :: name, rfl, ?_⟩
      simp
  obtain ⟨b, second⟩ : ∃ b, ofPath (0 :: twin) = .ok b := by
    apply ofPath_short
    simpa only [List.length_cons, length] using short
  have equal : (Address.unix a).eq host (Address.unix b) = some true := by
    rw [eq_ofPath host built second, padded_zero_cons, padded_zero_cons, length, decide_eq_true rfl]
  have unequal := apart (0 :: twin) b second (by simpa using ne)
  rw [equal] at unequal
  cases unequal

/-- Kept are the paths without a zero byte, and the one abstract name that has nothing to lose. -/
theorem keepsPath_iff (host : Host) (path : List UInt8) :
    KeepsPath host path ↔ path.length > MAX_PATH_LEN ∨ (0 : UInt8) ∉ path ∨ path = [0] := by
  constructor
  · intro kept
    by_contra! other
    obtain ⟨short, zero, more⟩ := other
    cases path with
    | nil => simp at zero
    | cons c name =>
      by_cases first : c = 0
      · subst first
        exact not_keepsPath_abstract host (by simpa using more) short kept
      · obtain ⟨a, built, -, -, read, -⟩ := kept.1 short
        rw [getPath_cons first built, shown, if_neg first] at read
        apply zero_notMem_cString (c :: name)
        rwa [read]
  · rintro (long | free | rfl)
    · exact ⟨fun short => absurd long (by omega), fun _ => ⟨_, ofPath_long long⟩⟩
    · exact keepsPath_of_free host free
    · exact keepsPath_zero host

/-- The abstract name `a` is one address with every other abstract name of this length. -/
theorem not_keepsPath_at_abstract : ¬ KeepsPath .little [0, 97] :=
  not_keepsPath_abstract .little (by simp) (by decide)

end UnixAddress

end Sylar
