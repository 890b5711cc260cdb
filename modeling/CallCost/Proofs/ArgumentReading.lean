import CallCost.CommandLine.Arguments
import Mathlib.Data.List.Basic

/-!
What a command line is read as. No flag has a say in the request, so the request is that of the
other arguments; a request for a profile is reached only at the end of the command line, and then
every flag that stands in it has been seen.
-/

namespace CallCost

/-- The flags together with those among some arguments. -/
def Flags.withSeen (f : Flags) (arguments : List String) : Flags where
  showSelf := f.showSelf || "--self" ∈ arguments
  flat := f.flat || "--flat" ∈ arguments
  json := f.json || "--json" ∈ arguments
  strictSections := f.strictSections || "--strict-sections" ∈ arguments

namespace Flags

theorem withSeen_nil (f : Flags) : f.withSeen [] = f := by
  simp [withSeen]

theorem withSeen_cons (f : Flags) (argument : String) (rest : List String) :
    f.withSeen (argument :: rest) = (f.withSeen [argument]).withSeen rest := by
  simp [withSeen, Bool.or_assoc]

end Flags

namespace Arguments

def flagNames : List String :=
  ["--self", "--flat", "--json", "--strict-sections"]

theorem withSeen_of_not_mem {argument : String} (h : argument ∉ flagNames) (f : Flags) :
    f.withSeen [argument] = f := by
  simp only [flagNames, List.mem_cons, List.not_mem_nil, or_false, not_or] at h
  obtain ⟨h₁, h₂, h₃, h₄⟩ := h
  simp [Flags.withSeen, Ne.symm h₁, Ne.symm h₂, Ne.symm h₃, Ne.symm h₄]

/-- The kinds of arguments. None that ends the reading asks for a profile. -/
inductive Kind (argument : String) : Prop where
  | stop (r : Request) (here : item argument = .stop r) (other : argument ∉ flagNames)
      (early : ∀ path label, r ≠ .profile path label)
  | flag (set : Flags → Flags) (here : item argument = .flag set) (known : argument ∈ flagNames)
      (sees : ∀ f : Flags, set f = f.withSeen [argument])
  | positional (here : item argument = .positional) (other : argument ∉ flagNames)

theorem item_of_not_mem {argument : String} (other : argument ∉ flagNames) :
    item argument =
      if argument = "--help" ∨ argument = "-h" then .stop .help
      else if argument = "--version" ∨ argument = "-v" then .stop .version
      else if argument.toList.head? = some '-' then .stop (.invalid (.unknown argument))
      else .positional := by
  simp only [flagNames, List.mem_cons, List.not_mem_nil, or_false, not_or] at other
  obtain ⟨h₁, h₂, h₃, h₄⟩ := other
  rw [item, if_neg h₁, if_neg h₂, if_neg h₃, if_neg h₄]

theorem kind (argument : String) : Kind argument := by
  by_cases known : argument ∈ flagNames
  · simp only [flagNames, List.mem_cons, List.not_mem_nil, or_false] at known
    rcases known with rfl | rfl | rfl | rfl <;>
      exact .flag _ rfl (by decide) fun f => by simp [Flags.withSeen]
  · have unnamed := item_of_not_mem known
    split at unnamed
    · exact .stop .help unnamed known (by simp)
    split at unnamed
    · exact .stop .version unnamed known (by simp)
    split at unnamed
    · exact .stop _ unnamed known (by simp)
    · exact .positional unnamed known

theorem request_readFrom (flags flags' : Flags) (positionals arguments : List String) :
    (readFrom flags positionals arguments).request =
      (readFrom flags' positionals (arguments.filter (· ∉ flagNames))).request := by
  induction arguments generalizing flags flags' positionals with
  | nil => rfl
  | cons argument rest ih =>
      rw [readFrom]
      cases kind argument with
      | stop r here other _ =>
          rw [List.filter_cons_of_pos (by simpa using other), readFrom, here]
      | flag set here known _ =>
          rw [List.filter_cons_of_neg (by simpa using known), here]
          exact ih (set flags) flags' positionals
      | positional here other =>
          rw [List.filter_cons_of_pos (by simpa using other), readFrom, here]
          exact ih flags flags' (positionals ++ [argument])

/-- The request is that of the arguments that are no flags. -/
theorem request_read (arguments : List String) :
    (read arguments).request = (read (arguments.filter (· ∉ flagNames))).request :=
  request_readFrom {} {} [] arguments

theorem flags_readFrom {flags : Flags} {positionals arguments : List String}
    {path label : String}
    (asked : (readFrom flags positionals arguments).request = .profile path label) :
    (readFrom flags positionals arguments).flags = flags.withSeen arguments := by
  induction arguments generalizing flags positionals with
  | nil => exact flags.withSeen_nil.symm
  | cons argument rest ih =>
      rw [readFrom] at asked ⊢
      rw [Flags.withSeen_cons]
      cases kind argument with
      | stop r here _ early =>
          rw [here] at asked
          exact absurd asked (early path label)
      | flag set here _ sees =>
          rw [here] at asked ⊢
          rw [← sees]
          exact ih asked
      | positional here other =>
          rw [here] at asked ⊢
          rw [withSeen_of_not_mem other]
          exact ih asked

/-- A run on a trace has all the flags of its command line, wherever they stand. -/
theorem flags_read {arguments : List String} {path label : String}
    (asked : (read arguments).request = .profile path label) :
    (read arguments).flags = Flags.withSeen {} arguments :=
  flags_readFrom asked

end Arguments
end CallCost
