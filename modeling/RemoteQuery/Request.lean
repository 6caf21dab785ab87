import RemoteQuery.QueryOptions
import RemoteQuery.Split.Basic

/-!
# Requests

A request filters by a predicate and selects what a selector needs from the server. The selector is
split, and only the server's half is sent.
-/

namespace RemoteQuery

structure RequestSettings where
  dialect : Dialect
  clientUse : ClientUse

namespace RequestSettings

def split (s : RequestSettings) (selector : Term) : Except Fault Split :=
  s.dialect.split s.clientUse selector

def request (s : RequestSettings) (predicate selector : Option Term) :
    Except Fault (QueryOptions × Option Split) := do
  let filter ← predicate.mapM s.dialect.predicate
  let split ← selector.mapM s.split
  return ({ QueryOptions.empty with filter, select := split.bind (·.serverText?) }, split)

end RequestSettings

def Fault.requestMessage (f : Fault) : String := "Compilation failed: " ++ f.message

end RemoteQuery
