import MoonWiki.Lua.Run

/-! `config.lua`. -/
namespace MoonWiki
open Lua

structure ServerConfig where
  rootDir : Bytes := str "htdocs"
  logoFile : Bytes := str "moon.jpg"
  cssStyles : Bytes := str "style.css"
  suffix : Bytes := str ".txt"
  version : Bytes := str "0.2"
  recentChangesListSize : Nat := 20
  exportSuffix : Bytes := str ".html"
  charset : Option Bytes := some (str "iso-8859-2")

def serverConfig : ServerConfig := {}

/-- File suffixes and their content types. -/
def contentTypes : List (Bytes × Bytes) :=
  [("txt", "text/plain"), ("htm", "text/html"), ("html", "text/html"), ("css", "text/css"),
    ("jpg", "image/jpeg"), ("jpeg", "image/jpeg"), ("gif", "image/gif"), ("png", "image/png"),
    ("au", "audio/basic"), ("wav", "audio/wav"), ("midi", "audio/midi"), ("mid", "audio/midi"),
    ("mp3", "audio/mpeg"), ("avi", "video/x-msvideo"), ("mov", "video/quicktime"),
    ("qt", "video/quicktime"), ("mpeg", "video/mpeg"), ("mpe", "video/mpeg"),
    ("vrml", "model/vrml"), ("wrl", "model/vrml"), ("lua", "text/plain")].map
    fun (suffix, type) => (str suffix, str type)

end MoonWiki
