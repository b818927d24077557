import PredicateLang.Command.Arguments

/-!
# The options of a check

The options of a check may be given in any order. `AsksCheck` says which arguments ask for a check
with some switches and a channel for the context; they all amount to the same request
(`AsksCheck.ofArguments_eq`). Each option that is read changes the draft of the request in one place
(`Draft.read_switch`, `Draft.read_setting`).
-/

namespace PredicateLang

def Setting.name : Setting → String
  | .logLevel => "log-level"
  | .context => "context"
  | .contextFile => "context-file"

def Switch.name : Switch → String
  | .pretty => "pretty"
  | .formOnly => "syntax-only"
  | .help => "help"
  | .version => "version"

/-- The arguments give a setting its value: in one argument, or in one of its own where it does not
look like an option. -/
inductive Setting.Gives (s : Setting) (value : String) : List String → Prop
  | joined : Gives s value ["--" ++ s.name ++ "=" ++ value]
  | apart : (∀ (c : Char) (cs : List Char), value.toList ≠ '-' :: c :: cs) →
      Gives s value ["--" ++ s.name, value]

def Switch.argument (s : Switch) : String :=
  "--" ++ s.name

namespace Draft

def ofCheck (settings : List (Setting × String)) (switches : List Switch) : Draft :=
  ⟨some .check, none, settings, switches⟩

variable {d : Draft} {settings : List (Setting × String)} {switches : List Switch}
  {rest : List String}

theorem read_long {argument : String} {c : Char} {name : List Char}
    (h : argument.toList = '-' :: '-' :: c :: name) :
    d.read none (argument :: rest) =
      d.long (c :: name) >>= fun next => next.1.read next.2 rest := by
  rw [read.eq_def]
  simp only [h]

theorem read_switch {s : Switch} (known : s = .pretty ∨ s = .formOnly) (fresh : s ∉ switches) :
    (ofCheck settings switches).read none (s.argument :: rest) =
      (ofCheck settings (s :: switches)).read none rest := by
  have turned : (ofCheck settings switches).turnOn s = .ok (ofCheck settings (s :: switches)) := by
    rcases known with rfl | rfl <;> exact if_neg fresh
  have long : (ofCheck settings switches).long s.name.toList =
      ((ofCheck settings switches).turnOn s >>= fun d => pure (d, none)) := by
    rcases known with rfl | rfl <;> rfl
  obtain ⟨c, name, spelled⟩ : ∃ (c : Char) (name : List Char), s.name.toList = c :: name := by
    rcases known with rfl | rfl <;> exact ⟨_, _, rfl⟩
  have argument : s.argument.toList = '-' :: '-' :: s.name.toList := by
    rw [Switch.argument, String.toList_append]
    rfl
  rw [spelled] at argument
  rw [read_long argument, ← spelled, long, turned]
  rfl

theorem set_eq {s : Setting} {value : String} (switches : List Switch)
    (unset : settings.lookup s = none) (named : s = .contextFile → value ≠ "") :
    (ofCheck settings switches).set s value = .ok (ofCheck ((s, value) :: settings) switches) := by
  refine if_neg ?_
  rintro (taken | ⟨path, empty⟩)
  · rw [setting?, ofCheck, unset] at taken
    contradiction
  · exact named path empty

/-- What does not look like an option is the value of the setting in front of it. -/
theorem read_value {s : Setting} {value : String}
    (plain : ∀ (c : Char) (cs : List Char), value.toList ≠ '-' :: c :: cs) :
    d.read (some s) (value :: rest) = d.set s value >>= fun d => d.read none rest := by
  rw [read.eq_def]
  dsimp only
  split
  case h_4 => exact absurd ‹_› (plain _ _)
  case h_5 same _ =>
    cases same
    rfl
  -- The others are cases without a setting that waits.
  all_goals contradiction

theorem read_setting {s : Setting} {value : String} {option : List String}
    (known : s = .context ∨ s = .contextFile) (gives : s.Gives value option)
    (unset : settings.lookup s = none) (named : s = .contextFile → value ≠ "") :
    (ofCheck settings switches).read none (option ++ rest) =
      (ofCheck ((s, value) :: settings) switches).read none rest := by
  have given := set_eq switches unset named
  obtain ⟨c, name, spelled⟩ : ∃ (c : Char) (name : List Char), s.name.toList = c :: name := by
    rcases known with rfl | rfl <;> exact ⟨_, _, rfl⟩
  cases gives with
  | joined =>
      have long (chars : List Char) :
          (ofCheck settings switches).long (s.name.toList ++ '=' :: chars) =
            ((ofCheck settings switches).set s (.ofList chars) >>= fun d => pure (d, none)) := by
        rcases known with rfl | rfl <;> rfl
      have argument : ("--" ++ s.name ++ "=" ++ value).toList =
          '-' :: '-' :: (s.name.toList ++ '=' :: value.toList) := by
        rw [String.toList_append, String.toList_append, String.toList_append, List.append_assoc]
        rfl
      rw [spelled, List.cons_append] at argument
      rw [List.singleton_append, read_long argument, ← List.cons_append, ← spelled, long,
        String.ofList_toList, given]
      rfl
  | apart plain =>
      have long : (ofCheck settings switches).long s.name.toList =
          .ok (ofCheck settings switches, some s) := by
        rcases known with rfl | rfl <;> rfl
      have argument : ("--" ++ s.name).toList = '-' :: '-' :: s.name.toList := by
        rw [String.toList_append]
        rfl
      rw [spelled] at argument
      rw [List.cons_append, read_long argument, ← spelled, long]
      change (ofCheck settings switches).read (some s) (value :: rest) = _
      rw [read_value plain, given]
      rfl

theorem read_switches {chosen : List Switch} (known : ∀ s ∈ chosen, s = .pretty ∨ s = .formOnly)
    (once : chosen.Nodup) (fresh : ∀ s ∈ chosen, s ∉ switches) :
    (ofCheck settings switches).read none (chosen.map Switch.argument ++ rest) =
      (ofCheck settings (chosen.reverse ++ switches)).read none rest := by
  induction chosen generalizing switches with
  | nil => rfl
  | cons s chosen ih =>
      obtain ⟨first, others⟩ := List.nodup_cons.1 once
      obtain ⟨knownFirst, knownOthers⟩ := List.forall_mem_cons.1 known
      obtain ⟨freshFirst, freshOthers⟩ := List.forall_mem_cons.1 fresh
      have fresh' : ∀ t ∈ chosen, t ∉ s :: switches := fun t isChosen taken => by
        rcases List.mem_cons.1 taken with rfl | taken
        · exact first isChosen
        · exact freshOthers t isChosen taken
      rw [List.map_cons, List.cons_append, read_switch knownFirst freshFirst,
        ih knownOthers others fresh', List.reverse_cons, List.append_assoc, List.singleton_append]

end Draft

def Channel.settings : Channel → List (Setting × String)
  | .text json => [(.context, json)]
  | .file path => [(.contextFile, path)]
  | _ => []

def Channel.NamedBy (channel : Channel) (option : List String) : Prop :=
  match channel with
  | .text json => Setting.context.Gives json option
  | .file path => Setting.contextFile.Gives path option
  | _ => option = []

def Switch.chosen (pretty formOnly : Bool) : List Switch :=
  (if pretty then [.pretty] else []) ++ if formOnly then [.formOnly] else []

theorem Switch.known_of_mem_chosen {pretty formOnly : Bool} {s : Switch}
    (h : s ∈ chosen pretty formOnly) : s = .pretty ∨ s = .formOnly := by
  cases pretty <;> cases formOnly <;> simp_all [chosen]

theorem Switch.nodup_chosen (pretty formOnly : Bool) : (chosen pretty formOnly).Nodup := by
  cases pretty <;> cases formOnly <;> decide

theorem Switch.pretty_mem_chosen (pretty formOnly : Bool) :
    .pretty ∈ chosen pretty formOnly ↔ pretty = true := by
  cases pretty <;> cases formOnly <;> decide

theorem Switch.formOnly_mem_chosen (pretty formOnly : Bool) :
    .formOnly ∈ chosen pretty formOnly ↔ formOnly = true := by
  cases pretty <;> cases formOnly <;> decide

/-- The arguments ask for a check of an expression, with options in some order: these switches and
the one for the channel, if it has one. -/
def AsksCheck (source : String) (channel : Channel) (pretty formOnly : Bool)
    (arguments : List String) : Prop :=
  ∃ (before after : List Switch) (option : List String),
    (before ++ after).Perm (Switch.chosen pretty formOnly) ∧ channel.NamedBy option ∧
      arguments = "check" :: (before.map Switch.argument ++
        (option ++ (after.map Switch.argument ++ ["--", source])))

theorem AsksCheck.read_eq {source : String} {channel : Channel} {pretty formOnly : Bool}
    {arguments : List String} (asks : AsksCheck source channel pretty formOnly arguments)
    (named : channel ≠ .file "") :
    ∃ switches : List Switch, switches.Perm (Switch.chosen pretty formOnly) ∧
      Draft.empty.read none arguments =
        .ok ⟨some .check, some source, channel.settings, switches⟩ := by
  obtain ⟨before, after, option, perm, naming, rfl⟩ := asks
  have known : ∀ s ∈ before ++ after, s = .pretty ∨ s = .formOnly := fun s given =>
    Switch.known_of_mem_chosen (perm.mem_iff.1 given)
  have once := perm.nodup_iff.2 (Switch.nodup_chosen pretty formOnly)
  obtain ⟨onceBefore, onceAfter, apart⟩ := List.nodup_append.1 once
  have settings : (Draft.ofCheck [] (before.reverse ++ [])).read none
        (option ++ (after.map Switch.argument ++ ["--", source])) =
      (Draft.ofCheck channel.settings (before.reverse ++ [])).read none
        (after.map Switch.argument ++ ["--", source]) := by
    cases channel with
    | absent | standardInput =>
        obtain rfl : option = [] := naming
        rfl
    | text json => exact Draft.read_setting (.inl rfl) naming rfl nofun
    | file path => exact Draft.read_setting (.inr rfl) naming rfl fun _ empty => named (empty ▸ rfl)
  refine ⟨after.reverse ++ (before.reverse ++ []), ?_, ?_⟩
  · rw [List.append_nil, ← List.reverse_append]
    exact (List.reverse_perm _).trans perm
  · change (Draft.ofCheck [] []).read none _ = _
    rw [Draft.read_switches (fun s given => known s (List.mem_append_left _ given)) onceBefore
      (fun _ _ => List.not_mem_nil), settings,
      Draft.read_switches (fun s given => known s (List.mem_append_right _ given)) onceAfter]
    · rfl
    · intro s given taken
      rw [List.append_nil, List.mem_reverse] at taken
      exact apart s taken s given rfl

/-- The channel of a check whose options name `channel`: the standard input is not wanted where only
the form of the expression matters. -/
def Channel.wanted (channel : Channel) (formOnly : Bool) : Channel :=
  match channel with
  | .text json => .text json
  | .file path => .file path
  | _ => if formOnly then .absent else .standardInput

/-- The order of the options does not matter. -/
theorem AsksCheck.ofArguments_eq {source : String} {channel : Channel} {pretty formOnly : Bool}
    {arguments : List String} (asks : AsksCheck source channel pretty formOnly arguments)
    (named : channel ≠ .file "") :
    Reply.ofArguments arguments =
      .request (.check source (channel.wanted formOnly) pretty formOnly) := by
  obtain ⟨switches, perm, read⟩ := asks.read_eq named
  have formOn := perm.mem_iff.trans (Switch.formOnly_mem_chosen pretty formOnly)
  have formOnly_eq : decide (Switch.formOnly ∈ switches) = formOnly := by
    rw [Bool.eq_iff_iff, decide_eq_true_iff, formOn]
  have pretty_eq : decide (Switch.pretty ∈ switches) = pretty := by
    rw [Bool.eq_iff_iff, decide_eq_true_iff, perm.mem_iff, Switch.pretty_mem_chosen]
  have wanted : Draft.channel ⟨some .check, some source, channel.settings, switches⟩ =
      channel.wanted formOnly := by
    cases channel with
    | text | file => rfl
    | absent | standardInput => exact ite_congr (propext formOn) (fun _ => rfl) fun _ => rfl
  have reply : Draft.reply ⟨some .check, some source, channel.settings, switches⟩ =
      .request (.check source (channel.wanted formOnly) (Switch.pretty ∈ switches)
        (Switch.formOnly ∈ switches)) := by
    rw [← wanted]
    cases channel <;> rfl
  rw [Reply.ofArguments, read, ← pretty_eq, ← formOnly_eq]
  exact reply.trans (by rw [formOnly_eq])

end PredicateLang
