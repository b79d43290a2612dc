import EditorConfig.Command.Run

/-! The files that a command may ask for. They are known before it runs, so that they can be
looked at first and the command itself needs nothing but what was found. -/
namespace EditorConfig.Command

def World.place (w : World) (path : Text) : Place :=
  ((Path.components (Path.absolute w.workingDirectory path)).filter (· ≠ [])).reverse

def withAncestors (path : Text) : List Text := path :: Path.ancestors path

def settingsPaths (env : Environment) : List Text :=
  let below (variableName : Text) (names : List Text) :=
    ((Entries.get? variableName env).map (names.foldl Path.join)).toList
  (below "EDCONF_CONFIG_DIR".toList ["edconfrc".toList] ++
    below "XDG_CONFIG_HOME".toList ["edconf".toList, "edconfrc".toList] ++
    [Path.join (Settings.homeDirectory env) ".edconfrc".toList]).flatMap withAncestors

def logPaths (w : World) : List Text :=
  match w.settings.toOption.bind fun l => (Settings.loggerPath w.environment l).toOption with
  | some (c :: rest) => Path.join (c :: rest) "edconf.log".toList :: withAncestors (c :: rest)
  | _ => []

def requestPaths (w : World) : Request → List Text
  | .resolve files configName _ _ =>
    let settingsName :=
      match w.settings.toOption.bind fun l => (Settings.configName l).toOption with
      | some (.text name) => name
      | _ => []
    let name := (configName.filter (· ≠ [])).getD settingsName
    (files.filterMap fun file => (canonical w file).toOption).flatMap fun file =>
      (Path.ancestors file).flatMap fun directory => [directory, Path.join directory name]
  | _ => []

def consulted (w : World) (words : List Text) : List Text :=
  match w.host.parser.command words with
  | .error _ => []
  | .ok (name, rest) =>
    logPaths w ++
      match w.host.parser.request name rest with
      | .ok request => requestPaths w request
      | .error _ => []

end EditorConfig.Command
