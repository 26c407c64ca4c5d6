import MachineCode.Error

/-!
# Log messages

The messages that are left while a program is decoded. They are an effect of their own: what has
been left stays in the log, whatever comes behind it, and also if that is an error.

## Main definitions

* `Log.Message` : a message.
* `Logged` : a computation that leaves messages and ends with a value or an error.
-/

namespace MachineCode

/-- Messages are either informative or warnings. -/
inductive Log.Level where
  | info
  | warning
  deriving DecidableEq, Repr

/-- A message of the log. -/
structure Log.Message where
  level : Log.Level
  text : String
  deriving DecidableEq, Repr

namespace Log

/-- The name of a level. -/
def Level.name : Level → String
  | .info => "INFO"
  | .warning => "WARNING"

/-- A message with the name of its level in front. -/
def Message.line (message : Message) : String :=
  message.level.name ++ ": " ++ message.text

end Log

/-- A computation: the messages that it leaves in the log, in their order, and how it ends. -/
structure Logged (α : Type) where
  messages : List Log.Message
  outcome : Except Error α

namespace Logged

variable {α β : Type}

/-- The messages of a computation stay in the log, in front of those of what follows it. Nothing
follows an error. -/
instance : Monad Logged where
  pure a := ⟨[], .ok a⟩
  bind x f :=
    match x.outcome with
    | .ok a => ⟨x.messages ++ (f a).messages, (f a).outcome⟩
    | .error error => ⟨x.messages, .error error⟩

/-- A computation that leaves no messages. -/
instance : MonadLift (Except Error) Logged where
  monadLift outcome := ⟨[], outcome⟩

/-- Leaves a message in the log. -/
def leave (message : Log.Message) : Logged Unit :=
  ⟨[message], .ok ()⟩

/-- Ends with an error. The messages that have been left stay. -/
def fail (error : Error) : Logged α :=
  ⟨[], .error error⟩

@[simp] theorem pure_eq (a : α) : (pure a : Logged α) = ⟨[], .ok a⟩ := rfl

@[simp] theorem lift_ok (a : α) : (liftM (.ok a : Except Error α) : Logged α) = ⟨[], .ok a⟩ := rfl

@[simp] theorem lift_error (error : Error) :
    (liftM (.error error : Except Error α) : Logged α) = ⟨[], .error error⟩ := rfl

@[simp] theorem ok_bind (messages : List Log.Message) (a : α) (f : α → Logged β) :
    (⟨messages, .ok a⟩ : Logged α) >>= f = ⟨messages ++ (f a).messages, (f a).outcome⟩ := rfl

@[simp] theorem error_bind (messages : List Log.Message) (error : Error) (f : α → Logged β) :
    (⟨messages, .error error⟩ : Logged α) >>= f = ⟨messages, .error error⟩ := rfl

theorem bind_of_outcome_error {x : Logged α} {error : Error} (h : x.outcome = .error error)
    (f : α → Logged β) : x >>= f = ⟨x.messages, .error error⟩ := by
  obtain ⟨messages, outcome⟩ := x
  subst h
  rfl

theorem bind_pure (x : Logged α) (f : α → β) :
    (x >>= fun a => pure (f a)) = ⟨x.messages, x.outcome.map f⟩ := by
  obtain ⟨messages, outcome⟩ := x
  cases outcome with
  | error error => rfl
  | ok a => exact congrArg (Logged.mk · _) (List.append_nil messages)

end Logged

end MachineCode
