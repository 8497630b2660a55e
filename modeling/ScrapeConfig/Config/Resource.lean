import ScrapeConfig.Config.Metric

/-!
# Resources

A resource is one HTTP endpoint of a service: how to reach it, how to authenticate, how to decode
the answer and which metrics to extract from it.
-/

namespace ScrapeConfig

inductive HttpMethod where
  | get
  | post
  deriving DecidableEq, Repr, Inhabited

namespace HttpMethod

def all : List HttpMethod := [.get, .post]

def name : HttpMethod → String
  | .get => "GET"
  | .post => "POST"

end HttpMethod

/-- An authentication scheme. -/
structure Auth where
  scheme : String
  options : Options := .empty
  deriving Inhabited, DecidableEq

namespace Auth

def copy (a : Auth) : Except StoreError Auth := do
  let options ← OptionStore.clone a.options
  return { scheme := a.scheme, options }

def agrees (a b : Auth) : Bool :=
  a.scheme == b.scheme && a.options.agrees b.options

end Auth

/-- A way to decode answers. -/
structure Decoder where
  mode : String
  options : Options := .empty
  deriving Inhabited, DecidableEq

namespace Decoder

def copy (d : Decoder) : Except StoreError Decoder := do
  let options ← OptionStore.clone d.options
  return { mode := d.mode, options }

def agrees (a b : Decoder) : Bool :=
  a.mode == b.mode && a.options.agrees b.options

end Decoder

structure Resource where
  method : HttpMethod := .get
  uri : String := ""
  auth : Option Auth := none
  decoder : Option Decoder := none
  metrics : List Metric := []
  options : Options := .empty
  deriving Inhabited, DecidableEq

/-- Agreement of values that may be absent. -/
def agreeOption {α : Type} (agree : α → α → Bool) : Option α → Option α → Bool
  | none, none => true
  | some a, some b => agree a b
  | _, _ => false

/-- Agreement of lists element by element. -/
def agreeList {α : Type} (agree : α → α → Bool) : List α → List α → Bool
  | [], [] => true
  | a :: as, b :: bs => agree a b && agreeList agree as bs
  | _, _ => false

namespace Resource

def copy (r : Resource) : Except StoreError Resource := do
  let auth ← r.auth.mapM Auth.copy
  let decoder ← r.decoder.mapM Decoder.copy
  let metrics ← r.metrics.mapM Metric.copy
  let options ← OptionStore.clone r.options
  return { method := r.method, uri := r.uri, auth, decoder, metrics, options }

def agrees (a b : Resource) : Bool :=
  a.method == b.method && a.uri == b.uri && agreeOption Auth.agrees a.auth b.auth &&
    agreeOption Decoder.agrees a.decoder b.decoder && agreeList Metric.agrees a.metrics b.metrics &&
    a.options.agrees b.options

/-- The path of the resource below a base path. -/
def pathBelow (r : Resource) (base : String) : String := base ++ r.uri

/-- The auth of the resource itself, else `fallback`. -/
def authOr (r : Resource) (fallback : Option Auth) : Option Auth := r.auth <|> fallback

end Resource

end ScrapeConfig
