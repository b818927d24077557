import PredicateLang.Json.Reader
import PredicateLang.KeyMap.Lemmas

/-!
# How large a document of a text can be

No string in a document has more characters than the text, and no array more items
(`Json.Document.within_of_ofText?`). Every token takes a character at least, and a string as many as
it has. An array has no more items than there have been tokens, so while it is open its items and
the tokens to come are no more than the text has characters.
-/

namespace PredicateLang.Json

theorem length_dropWhile_le (p : Char → Bool) (cs : List Char) :
    (cs.dropWhile p).length ≤ cs.length :=
  (List.dropWhile_sublist p).length_le

theorem length_of_map_prepend {c : Char} {read : Option (List Char × List Char)}
    {chars rest : List Char} {n : Nat}
    (bound : ∀ chars rest, read = some (chars, rest) → chars.length + rest.length ≤ n)
    (h : read.map (prepend c) = some (chars, rest)) : chars.length + rest.length ≤ n + 1 := by
  obtain ⟨⟨chars, rest⟩, found, same⟩ := Option.map_eq_some_iff.1 h
  cases same
  have le := bound _ _ found
  simp only [List.length_cons]
  omega

theorem length_of_stringBody? {cs chars rest : List Char}
    (h : stringBody? cs = some (chars, rest)) : chars.length + rest.length ≤ cs.length := by
  fun_induction stringBody? cs generalizing chars rest with
  | case2 rest =>
      cases h
      simp
  | case5 | case9 | case11 | case13 =>
      rename_i ih
      have le := length_of_map_prepend (fun _ _ => ih) h
      simp only [List.length_cons]
      omega
  | case1 | case3 | case4 | case6 | case7 | case8 | case10 | case12 => cases h

theorem length_of_fraction? {cs rest : List Char} {digits : Option (List Char)}
    (h : fraction? cs = some (digits, rest)) : rest.length ≤ cs.length := by
  unfold fraction? at h
  split at h
  · next more =>
      dsimp only at h
      split at h
      · contradiction
      · cases h
        exact Nat.le_succ_of_le (length_dropWhile_le ..)
  · cases h
    exact Nat.le_refl _

theorem length_of_exponentDigits? {negative : Bool} {cs rest : List Char} {exponent : Option Int}
    (h : exponentDigits? negative cs = some (exponent, rest)) : rest.length ≤ cs.length := by
  unfold exponentDigits? at h
  dsimp only at h
  split at h
  · contradiction
  · cases h
    exact length_dropWhile_le ..

theorem length_of_exponent? {cs rest : List Char} {exponent : Option Int}
    (h : exponent? cs = some (exponent, rest)) : rest.length ≤ cs.length := by
  unfold exponent? at h
  split at h
  · next e more =>
      split at h
      · have shorter : rest.length ≤ more.length := by
          split at h
          · exact Nat.le_succ_of_le (length_of_exponentDigits? h)
          · exact Nat.le_succ_of_le (length_of_exponentDigits? h)
          · exact length_of_exponentDigits? h
        exact Nat.le_succ_of_le shorter
      · cases h
        exact Nat.le_refl _
  · cases h
    exact Nat.le_refl _

theorem length_of_unsigned? {negative : Bool} {cs rest : List Char} {n : Number}
    (h : unsigned? negative cs = some (n, rest)) : rest.length ≤ cs.length := by
  obtain ⟨_, -, h⟩ := Option.bind_eq_some_iff.1 h
  obtain ⟨⟨fraction, afterFraction⟩, readFraction, h⟩ := Option.bind_eq_some_iff.1 h
  obtain ⟨⟨exponent, afterExponent⟩, readExponent, h⟩ := Option.bind_eq_some_iff.1 h
  have same : afterExponent = rest := by
    dsimp only at h
    split at h
    all_goals
      obtain ⟨_, -, same⟩ := Option.bind_eq_some_iff.1 h
      cases same
      rfl
  subst same
  exact Nat.le_trans (length_of_exponent? readExponent)
    (Nat.le_trans (length_of_fraction? readFraction) (length_dropWhile_le ..))

namespace Token

def Within (n : Nat) (token : Token) : Prop :=
  ∀ s : String, token = .string s → s.length ≤ n

theorem Within.mono {n n' : Nat} {token : Token} (h : token.Within n) (le : n ≤ n') :
    token.Within n' :=
  fun s isString => Nat.le_trans (h s isString) le

theorem within_of_not_string {n : Nat} {token : Token} (h : ∀ s : String, token ≠ .string s) :
    token.Within n :=
  fun s isString => absurd isString (h s)

/-- What follows a token is no longer than the text, and a string has no more characters. -/
theorem length_of_ofHead? {cs rest : List Char} {token : Token}
    (h : ofHead? cs = some (token, rest)) :
    rest.length ≤ cs.length ∧ token.Within cs.length := by
  unfold ofHead? at h
  split at h
  case h_10 more =>
    -- A string: its quotation marks make its text longer than it is.
    obtain ⟨⟨chars, after⟩, read, same⟩ := Option.map_eq_some_iff.1 h
    cases same
    have le : chars.length + after.length ≤ more.length := length_of_stringBody? read
    constructor
    · simp only [List.length_cons]
      omega
    · rintro _ ⟨⟩
      simp only [String.length_ofList, List.length_cons]
      omega
  case h_11 more =>
    obtain ⟨⟨n, after⟩, read, same⟩ := Option.map_eq_some_iff.1 h
    cases same
    exact ⟨Nat.le_succ_of_le (length_of_unsigned? read), within_of_not_string (by rintro s ⟨⟩)⟩
  case h_12 =>
    obtain ⟨⟨n, after⟩, read, same⟩ := Option.map_eq_some_iff.1 h
    cases same
    exact ⟨length_of_unsigned? read, within_of_not_string (by rintro s ⟨⟩)⟩
  all_goals
    cases h
    refine ⟨?_, within_of_not_string (by rintro s ⟨⟩)⟩
    simp only [List.length_cons]
    omega

theorem length_of_list? {count : Nat} {cs : List Char} {tokens : List Token}
    (h : list? count cs = some tokens) :
    tokens.length ≤ count ∧ ∀ token ∈ tokens, token.Within cs.length := by
  -- The induction is on the bound of the number of tokens, as `list?` recurses on it.
  induction count generalizing cs tokens with
  | zero =>
      rw [list?] at h
      split at h
      · cases h
        exact ⟨Nat.le_refl _, by rintro _ ⟨⟩⟩
      · contradiction
  | succ count ih =>
      have passed := length_dropWhile_le isBlank cs
      rw [list?] at h
      split at h
      · cases h
        exact ⟨Nat.zero_le _, by rintro _ ⟨⟩⟩
      · split at h
        · contradiction
        · next token rest read =>
            obtain ⟨tokens, more, rfl⟩ := Option.map_eq_some_iff.1 h
            obtain ⟨shorter, within⟩ := length_of_ofHead? read
            obtain ⟨few, all⟩ := ih more
            refine ⟨Nat.succ_le_succ few, ?_⟩
            rintro other (_ | ⟨_, found⟩)
            · exact within.mono passed
            · exact (all other found).mono (Nat.le_trans shorter passed)

theorem length_of_ofText? {text : String} {tokens : List Token}
    (h : ofText? text = some tokens) :
    tokens.length ≤ text.length ∧ ∀ token ∈ tokens, token.Within text.length := by
  have bounds := length_of_list? h
  rwa [String.length_toList] at bounds

end Token

/-- The strings and arrays in a document have at most `n` characters and items. -/
inductive Document.Within (n : Nat) : Document → Prop
  | null : Within n .null
  | boolean (b : Bool) : Within n (.boolean b)
  | number (number : Number) : Within n (.number number)
  | string {s : String} : s.length ≤ n → Within n (.string s)
  | array {items : List Document} :
      items.length ≤ n → (∀ d ∈ items, Within n d) → Within n (.array items)
  | object {members : KeyMap Document} :
      (∀ name d, members.find? name = some d → Within n d) → Within n (.object members)

def MembersWithin (n : Nat) (members : KeyMap Document) : Prop :=
  ∀ name d, members.find? name = some d → d.Within n

def Frame.Within (n left : Nat) : Frame → Prop
  | .array items => items.length + left ≤ n ∧ ∀ d ∈ items, d.Within n
  | .object members _ => MembersWithin n members

def Stage.Within (n : Nat) : Stage → Prop
  | .value | .firstItem => True
  | .name members _ | .colon members _ => MembersWithin n members
  | .complete d => d.Within n

def StateWithin (n left : Nat) (state : Stage × List Frame) : Prop :=
  left ≤ n ∧ state.1.Within n ∧ ∀ frame ∈ state.2, frame.Within n left

section

variable {n left : Nat} {d : Document} {members : KeyMap Document} {frames : List Frame}
  {token : Token} {state state' : Stage × List Frame}

theorem MembersWithin.insert (h : MembersWithin n members) (within : d.Within n) (name : String) :
    MembersWithin n (members.insert name d) := by
  intro other v found
  rw [KeyMap.find?_insert] at found
  split at found
  · cases found
    exact within
  · exact h other v found

theorem membersWithin_empty : MembersWithin n .empty := by
  rintro name d ⟨⟩

theorem Frame.Within.mono {frame : Frame} (h : frame.Within n (left + 1)) :
    frame.Within n left := by
  cases frame with
  | array items => exact ⟨Nat.le_of_succ_le h.1, h.2⟩
  | object members name => exact h

theorem stateWithin_startValue (isWithin : token.Within n) (few : left ≤ n)
    (opened : ∀ frame ∈ frames, frame.Within n left) (h : startValue frames token = some state) :
    StateWithin n left state := by
  unfold startValue at h
  split at h
  case h_4 s =>
    cases h
    exact ⟨few, .string (isWithin s rfl), opened⟩
  case h_5 =>
    split at h
    · cases h
      exact ⟨few, trivial, opened⟩
    · contradiction
  case h_6 =>
    split at h
    · cases h
      exact ⟨few, membersWithin_empty, opened⟩
    · contradiction
  case h_7 => contradiction
  all_goals
    cases h
    exact ⟨few, by constructor, opened⟩

/-- A complete value goes into the innermost frame, and takes the place of a token there. -/
theorem stateWithin_extendFrame (few : left + 1 ≤ n) (isWithin : d.Within n)
    (opened : ∀ frame ∈ frames, frame.Within n (left + 1))
    (h : extendFrame d frames token = some state) : StateWithin n left state := by
  have few' : left ≤ n := Nat.le_of_succ_le few
  unfold extendFrame at h
  split at h
  case h_1 items frames =>
    cases h
    -- The array grows by one item as the tokens to come get one fewer: the sum is kept.
    obtain ⟨⟨room, items⟩, outer⟩ := List.forall_mem_cons.1 opened
    have longer : Frame.Within n left (.array (d :: _)) :=
      ⟨by rw [List.length_cons]; omega, List.forall_mem_cons.2 ⟨isWithin, items⟩⟩
    exact ⟨few', trivial,
      List.forall_mem_cons.2 ⟨longer, fun frame found => (outer frame found).mono⟩⟩
  case h_2 items frames =>
    cases h
    obtain ⟨⟨room, items⟩, outer⟩ := List.forall_mem_cons.1 opened
    refine ⟨few', .array ?_ ?_, fun frame found => (outer frame found).mono⟩
    · rw [List.length_reverse, List.length_cons]
      omega
    · intro d found
      exact List.forall_mem_cons.2 ⟨isWithin, items⟩ d (List.mem_reverse.1 found)
  case h_3 members name frames =>
    cases h
    obtain ⟨members, outer⟩ := List.forall_mem_cons.1 opened
    exact ⟨few', MembersWithin.insert members isWithin name,
      fun frame found => (outer frame found).mono⟩
  case h_4 members name frames =>
    cases h
    obtain ⟨members, outer⟩ := List.forall_mem_cons.1 opened
    exact ⟨few', .object (MembersWithin.insert members isWithin name),
      fun frame found => (outer frame found).mono⟩
  case h_5 => contradiction

theorem stateWithin_step (isWithin : token.Within n) (within : StateWithin n (left + 1) state)
    (h : Stage.step state token = some state') : StateWithin n left state' := by
  obtain ⟨few, stage, opened⟩ := within
  have few' : left ≤ n := Nat.le_of_succ_le few
  have later : ∀ frame ∈ state.2, frame.Within n left :=
    fun frame found => (opened frame found).mono
  unfold Stage.step at h
  split at h
  case h_1 => exact stateWithin_startValue isWithin few' later h
  case h_2 =>
    cases h
    exact ⟨few', .array (Nat.zero_le n) (by rintro d ⟨⟩), later⟩
  case h_3 frames token _ =>
    -- The new array has no items yet, so the tokens to come are all there is room for.
    have first : Frame.Within n left (.array []) := ⟨by simpa using few', by rintro d ⟨⟩⟩
    exact stateWithin_startValue isWithin few' (List.forall_mem_cons.2 ⟨first, later⟩) h
  case h_4 =>
    cases h
    exact ⟨few', .object stage, later⟩
  case h_5 =>
    cases h
    exact ⟨few', stage, later⟩
  case h_6 =>
    cases h
    exact ⟨few', trivial, List.forall_mem_cons.2 ⟨stage, later⟩⟩
  case h_7 => exact stateWithin_extendFrame few stage opened h
  case h_8 => contradiction

theorem stateWithin_foldlM {tokens : List Token} (all : ∀ token ∈ tokens, token.Within n)
    (within : StateWithin n tokens.length state)
    (h : tokens.foldlM Stage.step state = some state') : StateWithin n 0 state' := by
  induction tokens generalizing state with
  | nil =>
      cases h
      exact within
  | cons token tokens ih =>
      obtain ⟨first, rest⟩ := List.forall_mem_cons.1 all
      rw [List.foldlM_cons] at h
      obtain ⟨next, step, h⟩ := Option.bind_eq_some_iff.1 h
      exact ih rest (stateWithin_step first within step) h

end

namespace Document

variable {text : String} {d : Document}

/-- No string and no array in the document of a text is longer than the text. -/
theorem within_of_ofText? (h : ofText? text = some d) : d.Within text.length := by
  obtain ⟨tokens, split, h⟩ := Option.bind_eq_some_iff.1 h
  obtain ⟨few, all⟩ := Token.length_of_ofText? split
  unfold ofTokens? at h
  split at h
  · next d' read =>
      cases h
      have start : StateWithin text.length tokens.length (.value, []) :=
        ⟨few, trivial, by rintro frame ⟨⟩⟩
      exact (stateWithin_foldlM all start read).2.1
  · contradiction

end Document

end PredicateLang.Json
