/-!
# Standard names

The tag names and attribute names that have a meaning of their own unless a configuration gives
other lists.
-/

namespace HtmlPrinter

/-- Lists the elements that have neither content nor an end tag, the obsolete ones included. -/
def standardVoids : List String :=
  ["area", "base", "basefont", "bgsound", "br", "col", "command", "embed", "frame", "hr", "image",
    "img", "input", "isindex", "keygen", "link", "menuitem", "meta", "nextid", "param", "source",
    "track", "wbr"]

/-- Lists the attributes whose presence alone is their value. -/
def standardBooleanAttributes : List String :=
  ["allowfullscreen", "allowpaymentrequest", "async", "autofocus", "autoplay", "checked",
    "compact", "controls", "declare", "default", "defaultchecked", "defaultmuted",
    "defaultselected", "defer", "disabled", "disablepictureinpicture", "disableremoteplayback",
    "download", "formnovalidate", "hidden", "inert", "ismap", "itemscope", "loop", "multiple",
    "muted", "nohref", "nomodule", "noresize", "noshade", "novalidate", "nowrap", "open",
    "playsinline", "readonly", "required", "reversed", "scoped", "seamless", "selected",
    "truespeed", "typemustmatch"]

end HtmlPrinter
